import TorrentAtlas.TrackerEffect

/-!
# Commands that write while they check

Six handlers of `tracker_state.cpp` write inside a check: `insert(...).second`,
`erase(...)` and `files[name]` change the group before it is known whether the command
is refused. Here they write in the order of the source. They compute the same as the
handlers of `TrackerState`, which check first, so a refused command leaves nothing behind.
-/
namespace TorrentAtlas.TrackerState

open Encoding Crypto

namespace InPlace

def joinGroup (s : TrackerState) (r : Request) : TrackerState × CommandResult :=
  match s.findGroup (r.arg 0) with
  | none => (s, r.reply (lit "ERR no such group"))
  | some group =>
    if group.members.contains r.user then (s, r.reply (lit "ERR already a member"))
    else
      let (pending, inserted) := group.pending.insertNew r.user
      let s := s.setGroup (r.arg 0) { group with pending }
      if !inserted then (s, r.reply (lit "ERR request already pending"))
      else (s, r.reply (lit "OK join requested"))

def leaveGroup (s : TrackerState) (r : Request) : TrackerState × CommandResult :=
  match s.findGroup (r.arg 0) with
  | none => (s, r.reply (lit "ERR no such group"))
  | some group =>
    if group.owner = r.user then (s, r.reply (lit "ERR owner cannot leave group"))
    else
      let (members, erased) := group.members.remove r.user
      let group := { group with members }
      let s := s.setGroup (r.arg 0) group
      if !erased then (s, r.reply (lit "ERR not a member"))
      else (s.setGroup (r.arg 0) (group.removeSharesOf r.user), r.reply (lit "OK left group"))

def acceptRequest (s : TrackerState) (r : Request) : TrackerState × CommandResult :=
  match s.findGroup (r.arg 0) with
  | none => (s, r.reply (lit "ERR no such group"))
  | some group =>
    if group.owner ≠ r.user then (s, r.reply (lit "ERR only owner may accept requests"))
    else
      let (pending, erased) := group.pending.remove (r.arg 1)
      let group := { group with pending }
      let s := s.setGroup (r.arg 0) group
      if !erased then (s, r.reply (lit "ERR no such pending request"))
      else
        (s.setGroup (r.arg 0) { group with members := group.members.insert (r.arg 1) () },
          r.reply (lit "OK request accepted"))

def removeMember (s : TrackerState) (r : Request) : TrackerState × CommandResult :=
  match s.findGroup (r.arg 0) with
  | none => (s, r.reply (lit "ERR no such group"))
  | some group =>
    if group.owner ≠ r.user then (s, r.reply (lit "ERR only owner may remove members"))
    else if r.arg 1 = group.owner then (s, r.reply (lit "ERR owner cannot be removed"))
    else
      let (members, erased) := group.members.remove (r.arg 1)
      let group := { group with members }
      let s := s.setGroup (r.arg 0) group
      if !erased then (s, r.reply (lit "ERR not a member"))
      else (s.setGroup (r.arg 0) (group.removeSharesOf (r.arg 1)), r.reply (lit "OK member removed"))

def uploadFile (s : TrackerState) (r : Request) : TrackerState × CommandResult :=
  match s.findGroup (r.arg 0) with
  | none => (s, r.reply (lit "ERR no such group"))
  | some group =>
    if !group.members.contains r.user then (s, r.reply (lit "ERR not a group member"))
    else
      match parseUpload r.args with
      | none => (s, r.reply (lit "ERR invalid upload metadata"))
      | some upload =>
        let (files, file) := group.files.subscript upload.name ⟨⟨0, [], []⟩, .empty⟩
        let s := s.setGroup (r.arg 0) { group with files }
        let share (file : SharedFile) : TrackerState :=
          s.setGroup (r.arg 0) { group with
            files := files.insert upload.name { file with seeders := file.seeders.insert r.user upload.seeder } }
        if file.metadata.fullHash.isEmpty then
          (share { file with metadata := upload.metadata }, r.reply (lit "OK file shared"))
        else if !file.metadata.sameContent upload.metadata then
          (s, r.reply (lit "ERR conflicting file metadata"))
        else (share file, r.reply (lit "OK file shared"))

def stopShare (s : TrackerState) (r : Request) : TrackerState × CommandResult :=
  match s.findGroup (r.arg 0), fromHex (r.arg 1) with
  | some group, some name =>
    match group.files.find name with
    | none => (s, r.reply (lit "ERR you are not sharing this file"))
    | some file =>
      let (seeders, erased) := file.seeders.remove r.user
      let group := { group with files := group.files.insert name { file with seeders } }
      let s := s.setGroup (r.arg 0) group
      if !erased then (s, r.reply (lit "ERR you are not sharing this file"))
      else if seeders.isEmpty then
        (s.setGroup (r.arg 0) { group with files := group.files.erase name }, r.reply (lit "OK sharing stopped"))
      else (s, r.reply (lit "OK sharing stopped"))
  | _, _ => (s, r.reply (lit "ERR invalid group/file"))

variable (ssl : OpenSsl)

/-- The dispatch table with these handlers. -/
def commands : List (Bytes × Command) := [
  (lit "create_user", ⟨createUser ssl, false, 2, lit "create_user <user> <password>"⟩),
  (lit "login", ⟨login ssl, false, 2, lit "login <user> <password>"⟩),
  (lit "logout", ⟨logout, false, 0, lit "logout"⟩),
  (lit "create_group", ⟨createGroup, true, 1, lit "create_group <group>"⟩),
  (lit "join_group", ⟨joinGroup, true, 1, lit "join_group <group>"⟩),
  (lit "leave_group", ⟨leaveGroup, true, 1, lit "leave_group <group>"⟩),
  (lit "list_groups", ⟨listGroups, true, 0, lit "list_groups"⟩),
  (lit "list_requests", ⟨listRequests, true, 1, lit "list_requests <group>"⟩),
  (lit "accept_request", ⟨acceptRequest, true, 2, lit "accept_request <group> <user>"⟩),
  (lit "remove_member", ⟨removeMember, true, 2, lit "remove_member <group> <user>"⟩),
  (lit "upload_file", ⟨uploadFile, true, -1, lit "upload_file"⟩),
  (lit "list_files", ⟨listFiles, true, 1, lit "list_files <group>"⟩),
  (lit "download_file", ⟨downloadFile ssl, true, 2, lit "download_file <group> <file>"⟩),
  (lit "stop_share", ⟨stopShare, true, 2, lit "stop_share <group> <file>"⟩)]

/-- `apply` over that table. -/
def apply (s : TrackerState) (session : UInt64) (commandLine : Bytes) (context : ApplyContext) :
    TrackerState × CommandResult :=
  match words commandLine with
  | [] => (s, ⟨lit "ERR empty command", session⟩)
  | name :: args =>
    match (commands ssl).lookup name with
    | none => (s, ⟨lit "ERR unknown command", session⟩)
    | some spec =>
      let request : Request := ⟨session, s.userOf session, args, context⟩
      if spec.needsLogin && request.user.isEmpty then (s, request.reply (lit "ERR login required"))
      else if spec.arity ≥ 0 && (args.length : Int) ≠ spec.arity then
        (s, request.reply (lit "ERR usage: " ++ spec.usage))
      else spec.handler s request

end InPlace

theorem setGroup_of_find {s : TrackerState} {name : Bytes} {group : Group} (h : s.findGroup name = some group) :
    s.setGroup name group = s := by
  simp only [setGroup, OrderedMap.insert_of_find (show s.groups.find name = some group from h)]

@[simp] theorem setGroup_setGroup (s : TrackerState) (name : Bytes) (group group' : Group) :
    (s.setGroup name group).setGroup name group' = s.setGroup name group' := by
  simp only [setGroup, OrderedMap.insert_insert]

section Handlers

variable (s : TrackerState) (r : Request)

theorem joinGroup_inPlace : InPlace.joinGroup s r = joinGroup s r := by
  unfold InPlace.joinGroup joinGroup
  cases hgroup : s.findGroup (r.arg 0) with
  | none => rfl
  | some group =>
    simp only [OrderedMap.insertNew, Bool.not_not]
    by_cases hmember : group.members.contains r.user = true
    · rw [if_pos hmember, if_pos hmember]
    · rw [if_neg hmember, if_neg hmember]
      by_cases hpending : group.pending.contains r.user = true
      · obtain ⟨⟨⟩, hfound⟩ := (OrderedMap.contains_iff _ _).mp hpending
        rw [if_pos hpending, if_pos hpending, OrderedMap.insert_of_find hfound, setGroup_of_find hgroup]
      · rw [if_neg hpending, if_neg hpending]

theorem leaveGroup_inPlace : InPlace.leaveGroup s r = leaveGroup s r := by
  unfold InPlace.leaveGroup leaveGroup
  cases hgroup : s.findGroup (r.arg 0) with
  | none => rfl
  | some group =>
    simp only [OrderedMap.remove, setGroup_setGroup]
    by_cases howner : group.owner = r.user
    · rw [if_pos howner, if_pos howner]
    · rw [if_neg howner, if_neg howner]
      cases hmember : group.members.contains r.user with
      | true => rfl
      | false =>
        have hnone : group.members.find r.user = none := by simpa [OrderedMap.contains] using hmember
        simp only [OrderedMap.erase_of_find hnone, setGroup_of_find hgroup]

theorem acceptRequest_inPlace : InPlace.acceptRequest s r = acceptRequest s r := by
  unfold InPlace.acceptRequest acceptRequest
  cases hgroup : s.findGroup (r.arg 0) with
  | none => rfl
  | some group =>
    simp only [OrderedMap.remove, setGroup_setGroup]
    by_cases howner : group.owner ≠ r.user
    · rw [if_pos howner, if_pos howner]
    · rw [if_neg howner, if_neg howner]
      cases hpending : group.pending.contains (r.arg 1) with
      | true => rfl
      | false =>
        have hnone : group.pending.find (r.arg 1) = none := by simpa [OrderedMap.contains] using hpending
        simp only [OrderedMap.erase_of_find hnone, setGroup_of_find hgroup]

theorem removeMember_inPlace : InPlace.removeMember s r = removeMember s r := by
  unfold InPlace.removeMember removeMember
  cases hgroup : s.findGroup (r.arg 0) with
  | none => rfl
  | some group =>
    simp only [OrderedMap.remove, setGroup_setGroup]
    by_cases howner : group.owner ≠ r.user
    · rw [if_pos howner, if_pos howner]
    · rw [if_neg howner, if_neg howner]
      by_cases hself : r.arg 1 = group.owner
      · rw [if_pos hself, if_pos hself]
      · rw [if_neg hself, if_neg hself]
        cases hmember : group.members.contains (r.arg 1) with
        | true => rfl
        | false =>
          have hnone : group.members.find (r.arg 1) = none := by simpa [OrderedMap.contains] using hmember
          simp only [OrderedMap.erase_of_find hnone, setGroup_of_find hgroup]

/-- `files[name]` inserts only where no hash stands in the way of the upload. -/
theorem uploadFile_inPlace : InPlace.uploadFile s r = uploadFile s r := by
  unfold InPlace.uploadFile uploadFile
  cases hgroup : s.findGroup (r.arg 0) with
  | none => rfl
  | some group =>
    simp only [OrderedMap.subscript, setGroup_setGroup, OrderedMap.insert_insert]
    cases hmember : group.members.contains r.user with
    | false => rfl
    | true =>
      simp only [Bool.not_true, Bool.false_eq_true, if_false]
      cases hupload : parseUpload r.args with
      | none => rfl
      | some upload =>
        simp only [shareFile]
        by_cases hnew : ((group.files.find upload.name).getD ⟨⟨0, [], []⟩, .empty⟩).metadata.fullHash.isEmpty = true
        · rw [if_pos hnew, if_pos hnew]
        · rw [if_neg hnew, if_neg hnew]
          cases hfile : group.files.find upload.name with
          | none => simp [hfile] at hnew
          | some file =>
            simp only [Option.getD_some]
            cases hsame : file.metadata.sameContent upload.metadata with
            | true => rfl
            | false => simp only [OrderedMap.insert_of_find hfile, setGroup_of_find hgroup, Bool.not_false, if_true,
                Bool.false_eq_true, if_false]

theorem stopShare_inPlace : InPlace.stopShare s r = stopShare s r := by
  unfold InPlace.stopShare stopShare
  cases hgroup : s.findGroup (r.arg 0) with
  | none => rfl
  | some group =>
    cases hname : fromHex (r.arg 1) with
    | none => rfl
    | some name =>
      cases hfile : group.files.find name with
      | none => simp only [hfile]
      | some file =>
        simp only [hfile, OrderedMap.remove, setGroup_setGroup, OrderedMap.erase_insert]
        cases hseeder : file.seeders.contains r.user with
        | true =>
          simp only [Bool.not_true, Bool.false_eq_true, if_false]
          split <;> rfl
        | false =>
          have hnone : file.seeders.find r.user = none := by simpa [OrderedMap.contains] using hseeder
          simp only [OrderedMap.erase_of_find hnone, OrderedMap.insert_of_find hfile, setGroup_of_find hgroup,
            Bool.not_false, if_true]

end Handlers

variable (ssl : OpenSsl)

theorem commands_inPlace : InPlace.commands ssl = commands ssl := by
  have hjoin : InPlace.joinGroup = joinGroup := funext fun s => funext fun r => joinGroup_inPlace s r
  have hleave : InPlace.leaveGroup = leaveGroup := funext fun s => funext fun r => leaveGroup_inPlace s r
  have haccept : InPlace.acceptRequest = acceptRequest := funext fun s => funext fun r => acceptRequest_inPlace s r
  have hremove : InPlace.removeMember = removeMember := funext fun s => funext fun r => removeMember_inPlace s r
  have hupload : InPlace.uploadFile = uploadFile := funext fun s => funext fun r => uploadFile_inPlace s r
  have hstop : InPlace.stopShare = stopShare := funext fun s => funext fun r => stopShare_inPlace s r
  unfold InPlace.commands commands
  rw [hjoin, hleave, haccept, hremove, hupload, hstop]

/-- Writing inside the checks makes no difference to any command in any state. -/
theorem apply_inPlace (s : TrackerState) (session : UInt64) (commandLine : Bytes) (context : ApplyContext) :
    InPlace.apply ssl s session commandLine context = apply ssl s session commandLine context := by
  unfold InPlace.apply apply
  exact commands_inPlace ssl ▸ rfl

variable {ssl}

section Atomicity

variable {s s' : TrackerState} {c : Call} {result : CommandResult}

/-- A reply that starts with `ERR` belongs to a refused call. -/
theorem Effect.of_error (e : Effect ssl s c s' result) (herr : lit "ERR" <+: result.response) :
    s' = s ∧ result.session = c.session := by
  cases e with
  | refused => exact ⟨rfl, rfl⟩
  | listed => exact ⟨rfl, rfl⟩
  | downloadFile => exact ⟨rfl, rfl⟩
  | _ =>
    dsimp only at herr
    exact absurd herr (by decide)

/-- Commands that only look. -/
def readOnly : List Bytes := [lit "list_groups", lit "list_requests", lit "list_files", lit "download_file"]

/-- A call that changes anything is of another command. -/
theorem Effect.writer (e : Effect ssl s c s' result) :
    s' = s ∨ ∃ name args, words c.commandLine = name :: args ∧ name ∉ readOnly := by
  cases e with
  | refused => exact Or.inl rfl
  | listed => exact Or.inl rfl
  | downloadFile => exact Or.inl rfl
  | createUser _ _ hwords => exact Or.inr ⟨_, _, hwords, by decide⟩
  | login _ _ _ _ hwords => exact Or.inr ⟨_, _, hwords, by decide⟩
  | logout hwords => exact Or.inr ⟨_, _, hwords, by decide⟩
  | createGroup _ hwords => exact Or.inr ⟨_, _, hwords, by decide⟩
  | joinGroup _ _ hwords => exact Or.inr ⟨_, _, hwords, by decide⟩
  | leaveGroup _ _ hwords => exact Or.inr ⟨_, _, hwords, by decide⟩
  | acceptRequest _ _ _ hwords => exact Or.inr ⟨_, _, hwords, by decide⟩
  | removeMember _ _ _ hwords => exact Or.inr ⟨_, _, hwords, by decide⟩
  | uploadFile _ _ _ _ _ hwords => exact Or.inr ⟨_, _, hwords, by decide⟩
  | stopShare _ _ _ _ _ hwords => exact Or.inr ⟨_, _, hwords, by decide⟩

theorem Effect.of_readOnly (e : Effect ssl s c s' result) {name : Bytes} {args : List Bytes}
    (hwords : words c.commandLine = name :: args) (hname : name ∈ readOnly) : s' = s := by
  rcases e.writer with rfl | ⟨name', args', hwords', hname'⟩
  · rfl
  · obtain ⟨rfl, -⟩ := List.cons.inj (hwords.symm.trans hwords')
    exact absurd hname hname'

end Atomicity

/-- Written in place or after its checks, a call whose reply starts with `ERR` changes neither users nor sessions nor
groups and returns the caller's session; a command that only looks changes nothing whatever it replies. -/
theorem failed_command_changes_nothing (ssl : OpenSsl) (s : TrackerState) (session : UInt64) (commandLine : Bytes)
    (context : ApplyContext) :
    InPlace.apply ssl s session commandLine context = apply ssl s session commandLine context ∧
    (lit "ERR" <+: (InPlace.apply ssl s session commandLine context).2.response →
      (InPlace.apply ssl s session commandLine context).1 = s ∧
        (InPlace.apply ssl s session commandLine context).2.session = session) ∧
    ((words commandLine).head?.any (· ∈ readOnly) = true →
      (InPlace.apply ssl s session commandLine context).1 = s) := by
  have heffect := @apply_effect ssl s ⟨session, commandLine, context⟩
  rw [apply_inPlace]
  refine ⟨rfl, heffect.of_error, fun hlook => ?_⟩
  cases hwords : words commandLine with
  | nil => simp [hwords] at hlook
  | cons name args =>
    have hname : name ∈ readOnly := by simpa [hwords] using hlook
    exact heffect.of_readOnly hwords hname

section Example

/-- Bob waits to be let into Alice's group. -/
def bobPending : TrackerState :=
  ⟨.empty, OrderedMap.empty.insert 7 (lit "bob"),
    OrderedMap.empty.insert (lit "g") ⟨lit "alice", OrderedMap.empty.insert (lit "alice") (),
      OrderedMap.empty.insert (lit "bob") (), .empty⟩⟩

def secondJoin : TrackerState × CommandResult :=
  InPlace.apply (Recording.replay {}) bobPending 7 (lit "join_group g") ⟨[], 0, 0⟩

/-- Bob's second request finds him in the set it inserts him into. -/
theorem failed_command_second_join : secondJoin.2.response = lit "ERR request already pending" ∧
    secondJoin.1 = bobPending ∧ secondJoin.2.session = 7 := by
  have hreply : secondJoin.2.response = lit "ERR request already pending" := by decide +kernel
  have hstarts : lit "ERR" <+: secondJoin.2.response := by
    rw [hreply]
    decide
  exact ⟨hreply, (failed_command_changes_nothing (Recording.replay {}) bobPending 7 (lit "join_group g")
    ⟨[], 0, 0⟩).2.1 hstarts⟩

end Example

end TorrentAtlas.TrackerState
