import TorrentAtlas.TrackerState

/-!
# What one tracker command can do

`Effect` lists every outcome of `TrackerState::apply` with the checks that led
to it, the state it leaves and the reply it gives. `apply_effect` says the list
is complete; later proofs are case analyses on it and never open a handler.
-/
namespace TorrentAtlas.TrackerState

open Encoding Crypto

/-- Replies that report a refused command. -/
def IsError (text : Bytes) : Prop := lit "ERR " <+: text

instance (text : Bytes) : Decidable (IsError text) := inferInstanceAs (Decidable (_ <+: _))

/-- The outcomes of a call `c` in the state `s`. -/
inductive Effect (ssl : OpenSsl) (s : TrackerState) (c : Call) : TrackerState → CommandResult → Prop
  | refused (text : Bytes) (herr : IsError text) : Effect ssl s c s ⟨text, c.session⟩
  | createUser (name secret : Bytes)
      (hwords : words c.commandLine = [lit "create_user", name, secret])
      (hnew : s.users.find name = none)
      (hstored : Password.hash ssl secret c.context.salt ≠ []) :
      Effect ssl s c { s with users := s.users.insert name (Password.hash ssl secret c.context.salt) }
        ⟨lit "OK user created", c.session⟩
  | login (name secret stored : Bytes) (session : UInt64)
      (hwords : words c.commandLine = [lit "login", name, secret])
      (hout : s.userOf c.session = [])
      (huser : s.users.find name = some stored)
      (hverify : Password.verify ssl secret stored = true)
      (hsession : session = if c.session = 0 then c.context.newSession else c.session)
      (hzero : session ≠ 0)
      (hfresh : c.session = 0 → s.sessions.find session = none) :
      Effect ssl s c { s with sessions := s.sessions.insert session name } ⟨lit "OK logged in", session⟩
  | logout (hwords : words c.commandLine = [lit "logout"])
      (huser : s.userOf c.session ≠ []) :
      Effect ssl s c
        { s with
          groups := s.groups.mapValues (fun group => group.removeSharesOf (s.userOf c.session))
          sessions := s.sessions.erase c.session } ⟨lit "OK logged out", 0⟩
  | createGroup (name : Bytes)
      (hwords : words c.commandLine = [lit "create_group", name])
      (huser : s.userOf c.session ≠ [])
      (hnew : s.groups.find name = none) :
      Effect ssl s c
        (s.setGroup name ⟨s.userOf c.session, OrderedMap.empty.insert (s.userOf c.session) (), .empty, .empty⟩)
        ⟨lit "OK group created", c.session⟩
  | joinGroup (name : Bytes) (group : Group)
      (hwords : words c.commandLine = [lit "join_group", name])
      (huser : s.userOf c.session ≠ [])
      (hgroup : s.groups.find name = some group)
      (hmember : group.members.contains (s.userOf c.session) = false)
      (hpending : group.pending.contains (s.userOf c.session) = false) :
      Effect ssl s c
        (s.setGroup name { group with pending := group.pending.insert (s.userOf c.session) () })
        ⟨lit "OK join requested", c.session⟩
  | leaveGroup (name : Bytes) (group : Group)
      (hwords : words c.commandLine = [lit "leave_group", name])
      (huser : s.userOf c.session ≠ [])
      (hgroup : s.groups.find name = some group)
      (howner : group.owner ≠ s.userOf c.session)
      (hmember : group.members.contains (s.userOf c.session) = true) :
      Effect ssl s c
        (s.setGroup name ({ group with
          members := group.members.erase (s.userOf c.session) }.removeSharesOf (s.userOf c.session)))
        ⟨lit "OK left group", c.session⟩
  | listed (text : Bytes) (hwords : ∃ args, words c.commandLine = lit "list_groups" :: args ∨
        words c.commandLine = lit "list_requests" :: args ∨ words c.commandLine = lit "list_files" :: args)
      (hok : lit "OK" <+: text) :
      Effect ssl s c s ⟨text, c.session⟩
  | acceptRequest (name user : Bytes) (group : Group)
      (hwords : words c.commandLine = [lit "accept_request", name, user])
      (huser : s.userOf c.session ≠ [])
      (hgroup : s.groups.find name = some group)
      (howner : group.owner = s.userOf c.session)
      (hpending : group.pending.contains user = true) :
      Effect ssl s c
        (s.setGroup name { group with
          pending := group.pending.erase user, members := group.members.insert user () })
        ⟨lit "OK request accepted", c.session⟩
  | removeMember (name user : Bytes) (group : Group)
      (hwords : words c.commandLine = [lit "remove_member", name, user])
      (huser : s.userOf c.session ≠ [])
      (hgroup : s.groups.find name = some group)
      (howner : group.owner = s.userOf c.session)
      (hother : user ≠ group.owner)
      (hmember : group.members.contains user = true) :
      Effect ssl s c
        (s.setGroup name ({ group with members := group.members.erase user }.removeSharesOf user))
        ⟨lit "OK member removed", c.session⟩
  | uploadFile (name : Bytes) (args : List Bytes) (group : Group) (upload : Upload) (file : SharedFile)
      (hwords : words c.commandLine = lit "upload_file" :: name :: args)
      (huser : s.userOf c.session ≠ [])
      (hgroup : s.groups.find name = some group)
      (hmember : group.members.contains (s.userOf c.session) = true)
      (hupload : parseUpload (name :: args) = some upload)
      (hfile : shareFile (group.files.find upload.name) upload (s.userOf c.session) = some file) :
      Effect ssl s c (s.setGroup name { group with files := group.files.insert upload.name file })
        ⟨lit "OK file shared", c.session⟩
  | downloadFile (name hexFile fileName : Bytes) (group : Group) (file : SharedFile) (accesses : List SeederAccess)
      (hwords : words c.commandLine = [lit "download_file", name, hexFile])
      (huser : s.userOf c.session ≠ [])
      (hgroup : s.groups.find name = some group)
      (hmember : group.members.contains (s.userOf c.session) = true)
      (hname : fromHex hexFile = some fileName)
      (hfile : group.files.find fileName = some file)
      (hseeders : file.seeders.isEmpty = false)
      (hissued : issueAccesses ssl ⟨s.userOf c.session, name, fileName, c.context.now + 300⟩
        file.seeders.entries = some accesses) :
      Effect ssl s c s ⟨metaReply file.metadata accesses, c.session⟩
  | stopShare (name hexFile fileName : Bytes) (group : Group) (file : SharedFile)
      (hwords : words c.commandLine = [lit "stop_share", name, hexFile])
      (huser : s.userOf c.session ≠ [])
      (hgroup : s.groups.find name = some group)
      (hname : fromHex hexFile = some fileName)
      (hfile : group.files.find fileName = some file)
      (hseeder : file.seeders.contains (s.userOf c.session) = true) :
      Effect ssl s c
        (s.setGroup name { group with
          files := if (file.seeders.erase (s.userOf c.session)).isEmpty then group.files.erase fileName
            else group.files.insert fileName { file with seeders := file.seeders.erase (s.userOf c.session) } })
        ⟨lit "OK sharing stopped", c.session⟩

variable {ssl : OpenSsl}

/-- The request `apply` builds for a handler. -/
def requestOf (s : TrackerState) (c : Call) (args : List Bytes) : Request :=
  ⟨c.session, s.userOf c.session, args, c.context⟩

@[simp] theorem requestOf_session (s : TrackerState) (c : Call) (args : List Bytes) :
    (requestOf s c args).session = c.session := rfl
@[simp] theorem requestOf_user (s : TrackerState) (c : Call) (args : List Bytes) :
    (requestOf s c args).user = s.userOf c.session := rfl
@[simp] theorem requestOf_args (s : TrackerState) (c : Call) (args : List Bytes) :
    (requestOf s c args).args = args := rfl
@[simp] theorem requestOf_context (s : TrackerState) (c : Call) (args : List Bytes) :
    (requestOf s c args).context = c.context := rfl
@[simp] theorem requestOf_arg_zero (s : TrackerState) (c : Call) (a : Bytes) (args : List Bytes) :
    (requestOf s c (a :: args)).arg 0 = a := rfl
@[simp] theorem requestOf_arg_one (s : TrackerState) (c : Call) (a b : Bytes) (args : List Bytes) :
    (requestOf s c (a :: b :: args)).arg 1 = b := rfl

/-- `Effect` of a state and reply given as one result. -/
def Outcome (ssl : OpenSsl) (s : TrackerState) (c : Call) (result : TrackerState × CommandResult) : Prop :=
  Effect ssl s c result.1 result.2

section Handlers

variable {s : TrackerState} {c : Call}

theorem outcome_error (text : Bytes) (h : IsError text) : Outcome ssl s c (s, ⟨text, c.session⟩) :=
  Effect.refused text h

theorem createUser_outcome {a b : Bytes} (hw : words c.commandLine = [lit "create_user", a, b]) :
    Outcome ssl s c (createUser ssl s (requestOf s c [a, b])) := by
  unfold createUser
  dsimp only
  split
  · exact outcome_error _ (by decide)
  · next hnew =>
    split
    · exact outcome_error _ (by decide)
    · next hstored =>
      refine Effect.createUser a b hw ?_ (by simpa using hstored)
      simpa [OrderedMap.contains] using hnew

theorem login_outcome {a b : Bytes} (hw : words c.commandLine = [lit "login", a, b]) :
    Outcome ssl s c (login ssl s (requestOf s c [a, b])) := by
  unfold login
  dsimp only
  split
  · exact outcome_error _ (by decide)
  · next hout =>
    split
    · exact outcome_error _ (by decide)
    · next stored hstored =>
      split
      · exact outcome_error _ (by decide)
      · next hverify =>
        split
        · next hbad =>
          have hz : c.session = 0 := by
            simp only [Bool.and_eq_true, decide_eq_true_eq] at hbad
            exact hbad.1
          rw [← hz]
          exact outcome_error _ (by decide)
        · next hgood =>
          simp only [Bool.and_eq_true, Bool.or_eq_true, decide_eq_true_eq, not_and, not_or] at hgood
          refine Effect.login a b stored _ hw (by simpa using hout) hstored (by simpa using hverify) rfl ?_ ?_
          · by_cases hz : c.session = 0
            · simpa [hz] using (hgood hz).1
            · simp [hz]
          · intro hz
            simpa [hz, OrderedMap.contains] using (hgood hz).2

theorem logout_outcome (hw : words c.commandLine = [lit "logout"]) :
    Outcome ssl s c (logout s (requestOf s c [])) := by
  unfold logout
  split
  · exact outcome_error _ (by decide)
  · next huser => exact Effect.logout hw (by simpa using huser)

theorem createGroup_outcome {a : Bytes} (hw : words c.commandLine = [lit "create_group", a])
    (huser : s.userOf c.session ≠ []) : Outcome ssl s c (createGroup s (requestOf s c [a])) := by
  unfold createGroup
  split
  · exact outcome_error _ (by decide)
  · next hnew => exact Effect.createGroup a hw huser (by simpa [OrderedMap.contains] using hnew)

theorem joinGroup_outcome {a : Bytes} (hw : words c.commandLine = [lit "join_group", a])
    (huser : s.userOf c.session ≠ []) : Outcome ssl s c (joinGroup s (requestOf s c [a])) := by
  unfold joinGroup
  split
  · exact outcome_error _ (by decide)
  · next group hgroup =>
    split
    · exact outcome_error _ (by decide)
    · next hmember =>
      split
      · exact outcome_error _ (by decide)
      · next hpending =>
        exact Effect.joinGroup a group hw huser hgroup (by simpa using hmember) (by simpa using hpending)

theorem leaveGroup_outcome {a : Bytes} (hw : words c.commandLine = [lit "leave_group", a])
    (huser : s.userOf c.session ≠ []) : Outcome ssl s c (leaveGroup s (requestOf s c [a])) := by
  unfold leaveGroup
  split
  · exact outcome_error _ (by decide)
  · next group hgroup =>
    split
    · exact outcome_error _ (by decide)
    · next howner =>
      split
      · exact outcome_error _ (by decide)
      · next hmember => exact Effect.leaveGroup a group hw huser hgroup howner (by simpa using hmember)

theorem listing_ok (names : List Bytes) : lit "OK" <+: listing names := List.prefix_append _ _

theorem listGroups_outcome {args : List Bytes} (hw : words c.commandLine = lit "list_groups" :: args) :
    Outcome ssl s c (listGroups s (requestOf s c args)) :=
  Effect.listed _ ⟨args, Or.inl hw⟩ (listing_ok _)

theorem listRequests_outcome {args : List Bytes} (hw : words c.commandLine = lit "list_requests" :: args) :
    Outcome ssl s c (listRequests s (requestOf s c args)) := by
  unfold listRequests
  split
  · exact outcome_error _ (by decide)
  · split
    · exact outcome_error _ (by decide)
    · exact Effect.listed _ ⟨args, Or.inr (Or.inl hw)⟩ (listing_ok _)

theorem acceptRequest_outcome {a b : Bytes} (hw : words c.commandLine = [lit "accept_request", a, b])
    (huser : s.userOf c.session ≠ []) : Outcome ssl s c (acceptRequest s (requestOf s c [a, b])) := by
  unfold acceptRequest
  split
  · exact outcome_error _ (by decide)
  · next group hgroup =>
    split
    · exact outcome_error _ (by decide)
    · next howner =>
      split
      · exact outcome_error _ (by decide)
      · next hpending =>
        exact Effect.acceptRequest a b group hw huser hgroup (by simpa using howner) (by simpa using hpending)

theorem removeMember_outcome {a b : Bytes} (hw : words c.commandLine = [lit "remove_member", a, b])
    (huser : s.userOf c.session ≠ []) : Outcome ssl s c (removeMember s (requestOf s c [a, b])) := by
  unfold removeMember
  split
  · exact outcome_error _ (by decide)
  · next group hgroup =>
    split
    · exact outcome_error _ (by decide)
    · next howner =>
      split
      · exact outcome_error _ (by decide)
      · next hother =>
        split
        · exact outcome_error _ (by decide)
        · next hmember =>
          exact Effect.removeMember a b group hw huser hgroup (by simpa using howner) hother
            (by simpa using hmember)

theorem parseUpload_nil : parseUpload [] = none := rfl

theorem uploadFile_outcome {args : List Bytes} (hw : words c.commandLine = lit "upload_file" :: args)
    (huser : s.userOf c.session ≠ []) : Outcome ssl s c (uploadFile s (requestOf s c args)) := by
  unfold uploadFile
  split
  · exact outcome_error _ (by decide)
  · next group hgroup =>
    split
    · exact outcome_error _ (by decide)
    · next hmember =>
      split
      · exact outcome_error _ (by decide)
      · next upload hupload =>
        split
        · exact outcome_error _ (by decide)
        · next file hfile =>
          cases args with
          | nil => simp [parseUpload_nil] at hupload
          | cons a rest =>
            exact Effect.uploadFile a rest group upload file hw huser hgroup (by simpa using hmember)
              hupload hfile

theorem listFiles_outcome {args : List Bytes} (hw : words c.commandLine = lit "list_files" :: args) :
    Outcome ssl s c (listFiles s (requestOf s c args)) := by
  unfold listFiles
  split
  · exact outcome_error _ (by decide)
  · split
    · exact outcome_error _ (by decide)
    · exact Effect.listed _ ⟨args, Or.inr (Or.inr hw)⟩ (listing_ok _)

theorem downloadFile_outcome {a b : Bytes} (hw : words c.commandLine = [lit "download_file", a, b])
    (huser : s.userOf c.session ≠ []) : Outcome ssl s c (downloadFile ssl s (requestOf s c [a, b])) := by
  unfold downloadFile
  dsimp only
  split
  · exact outcome_error _ (by decide)
  · next group hgroup =>
    split
    · exact outcome_error _ (by decide)
    · next hmember =>
      split
      · exact outcome_error _ (by decide)
      · next name hname =>
        split
        · exact outcome_error _ (by decide)
        · next file hfile =>
          split
          · exact outcome_error _ (by decide)
          · next hseeders =>
            split
            · exact outcome_error _ (by decide)
            · next accesses hissued =>
              exact Effect.downloadFile a b name group file accesses hw huser hgroup (by simpa using hmember)
                hname hfile (by simpa using hseeders) hissued

theorem stopShare_outcome {a b : Bytes} (hw : words c.commandLine = [lit "stop_share", a, b])
    (huser : s.userOf c.session ≠ []) : Outcome ssl s c (stopShare s (requestOf s c [a, b])) := by
  unfold stopShare
  dsimp only
  split
  · next group name hgroup hname =>
    split
    · exact outcome_error _ (by decide)
    · next file hfile =>
      split
      · exact outcome_error _ (by decide)
      · next hseeder =>
        exact Effect.stopShare a b name group file hw huser hgroup hname hfile (by simpa using hseeder)
  · exact outcome_error _ (by decide)

end Handlers

theorem isError_usage (usage : Bytes) : IsError (lit "ERR usage: " ++ usage) :=
  List.IsPrefix.trans (by decide) (List.prefix_append _ _)

/-- Every call has one of the listed outcomes. -/
theorem apply_effect (s : TrackerState) (c : Call) :
    Effect ssl s c (step ssl s c).1 (step ssl s c).2 := by
  change Outcome ssl s c (apply ssl s c.session c.commandLine c.context)
  unfold apply
  split
  · exact outcome_error _ (by decide)
  · next name args hwords =>
    split
    · exact outcome_error _ (by decide)
    · next spec hspec =>
      have hmem := mem_of_lookup hspec
      dsimp only
      split
      · exact outcome_error _ (by decide)
      · next hlogin =>
        split
        · exact outcome_error _ (isError_usage _)
        · next harity =>
          change Outcome ssl s c (spec.handler s (requestOf s c args))
          simp only [commands, List.mem_cons, Prod.mk.injEq, List.not_mem_nil, or_false] at hmem
          rcases hmem with h | h | h | h | h | h | h | h | h | h | h | h | h | h
          all_goals
            obtain ⟨rfl, rfl⟩ := h
            simp at hlogin harity
          · obtain ⟨a, b, rfl⟩ := List.length_eq_two.mp (show args.length = 2 by omega)
            exact createUser_outcome hwords
          · obtain ⟨a, b, rfl⟩ := List.length_eq_two.mp (show args.length = 2 by omega)
            exact login_outcome hwords
          · obtain rfl := List.length_eq_zero_iff.mp (show args.length = 0 by simpa using harity)
            exact logout_outcome hwords
          · obtain ⟨a, rfl⟩ := List.length_eq_one_iff.mp (show args.length = 1 by omega)
            exact createGroup_outcome hwords hlogin
          · obtain ⟨a, rfl⟩ := List.length_eq_one_iff.mp (show args.length = 1 by omega)
            exact joinGroup_outcome hwords hlogin
          · obtain ⟨a, rfl⟩ := List.length_eq_one_iff.mp (show args.length = 1 by omega)
            exact leaveGroup_outcome hwords hlogin
          · exact listGroups_outcome hwords
          · exact listRequests_outcome hwords
          · obtain ⟨a, b, rfl⟩ := List.length_eq_two.mp (show args.length = 2 by omega)
            exact acceptRequest_outcome hwords hlogin
          · obtain ⟨a, b, rfl⟩ := List.length_eq_two.mp (show args.length = 2 by omega)
            exact removeMember_outcome hwords hlogin
          · exact uploadFile_outcome hwords hlogin
          · exact listFiles_outcome hwords
          · obtain ⟨a, b, rfl⟩ := List.length_eq_two.mp (show args.length = 2 by omega)
            exact downloadFile_outcome hwords hlogin
          · obtain ⟨a, b, rfl⟩ := List.length_eq_two.mp (show args.length = 2 by omega)
            exact stopShare_outcome hwords hlogin

/-- A `download_file` command answered with metadata and tickets. -/
structure Located (ssl : OpenSsl) (s : TrackerState) (c : Call) (name hexFile fileName : Bytes) (group : Group)
    (file : SharedFile) (accesses : List SeederAccess) : Prop where
  hwords : words c.commandLine = [lit "download_file", name, hexFile]
  huser : s.userOf c.session ≠ []
  hgroup : s.groups.find name = some group
  hmember : group.members.contains (s.userOf c.session) = true
  hname : fromHex hexFile = some fileName
  hfile : group.files.find fileName = some file
  hissued : issueAccesses ssl ⟨s.userOf c.session, name, fileName, c.context.now + 300⟩ file.seeders.entries =
    some accesses
  hresponse : (step ssl s c).2.response = metaReply file.metadata accesses

theorem metaReply_isPrefixOf (metadata : FileMetadata) (accesses : List SeederAccess) :
    (lit "META ").isPrefixOf (metaReply metadata accesses) = true := by
  simp [metaReply, List.append_assoc]

theorem not_meta_of_prefix {text head : Bytes} (h : head <+: text) (hne : head ≠ [])
    (hhead : head.head? ≠ some (chr 'M')) : (lit "META ").isPrefixOf text = false := by
  obtain ⟨rest, rfl⟩ := h
  cases head with
  | nil => exact absurd rfl hne
  | cons b bs =>
    have hb : chr 'M' ≠ b := fun hc => hhead (by simp [hc])
    change (chr 'M' == b && _) = false
    simp [hb]

/-- Only `download_file` answers with `META`. -/
theorem located_of_meta {s : TrackerState} {c : Call}
    (h : (lit "META ").isPrefixOf (step ssl s c).2.response = true) :
    ∃ name hexFile fileName group file accesses, Located ssl s c name hexFile fileName group file accesses := by
  have hno : ∀ {text head : Bytes}, (step ssl s c).2.response = text → head <+: text → head ≠ [] →
      head.head? ≠ some (chr 'M') → False := by
    intro text head ht hp hne hhead
    rw [ht, not_meta_of_prefix hp hne hhead] at h
    simp at h
  have heffect := @apply_effect ssl s c
  generalize hs : (step ssl s c).1 = s', hr : (step ssl s c).2 = result at heffect
  have hresponse : (step ssl s c).2.response = result.response := by rw [hr]
  cases heffect with
  | downloadFile name hexFile fileName group file accesses hwords huser hgroup hmember hname hfile hseeders hissued =>
    exact ⟨name, hexFile, fileName, group, file, accesses, hwords, huser, hgroup, hmember, hname, hfile, hissued,
      hresponse⟩
  | refused text herr => exact (hno hresponse herr (by decide) (by decide)).elim
  | listed text hwords hok => exact (hno hresponse hok (by decide) (by decide)).elim
  | _ =>
    rw [hresponse] at h
    exact absurd h (by dsimp only; decide)

/-- The reply is about the group and the file that the command names. -/
theorem located_of_meta_of {s : TrackerState} {c : Call} {name hexFile fileName : Bytes} {group : Group}
    {file : SharedFile} (h : (lit "META ").isPrefixOf (step ssl s c).2.response = true)
    (hwords : words c.commandLine = [lit "download_file", name, hexFile]) (hname : fromHex hexFile = some fileName)
    (hgroup : s.groups.find name = some group) (hfile : group.files.find fileName = some file) :
    ∃ accesses, Located ssl s c name hexFile fileName group file accesses := by
  obtain ⟨name', hexFile', fileName', group', file', accesses, hl⟩ := located_of_meta h
  have hsame : name' = name ∧ hexFile' = hexFile := by simpa using hl.hwords.symm.trans hwords
  obtain ⟨rfl, rfl⟩ := hsame
  obtain rfl := Option.some.inj (hl.hname.symm.trans hname)
  obtain rfl := Option.some.inj (hl.hgroup.symm.trans hgroup)
  obtain rfl := Option.some.inj (hl.hfile.symm.trans hfile)
  exact ⟨accesses, hl⟩

end TorrentAtlas.TrackerState
