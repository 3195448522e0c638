import Mathlib.Data.List.Sort
import TorrentAtlas.FileMetadata
import TorrentAtlas.PeerTicket
import TorrentAtlas.Library.OrderedMap
import TorrentAtlas.Library.Machine

/-!
# The tracker's state and commands (`tracker/state/*.cpp`)

`apply` runs one command line under the state's lock, so a run of the tracker
is a sequence of calls. Handlers take the state and the request and return the
new state and the reply; a `Group *` that a handler writes through becomes an
insertion of the changed group. Everything random or time-dependent comes from
the context, as in the source.
-/
namespace TorrentAtlas

open Encoding Crypto

namespace Password

def ITERATIONS : Nat := 20000
def DIGEST_SIZE : Nat := 32

variable (ssl : OpenSsl)

def hash (password salt : Bytes) : Bytes :=
  if salt.length ≠ 16 then []
  else
    let digest := pbkdf2Sha256 ssl password salt ITERATIONS DIGEST_SIZE
    if digest.isEmpty then []
    else lit "pbkdf2-sha256$" ++ decimal ITERATIONS ++ lit "$" ++ toHex salt ++ lit "$" ++ toHex digest

def verify (password stored : Bytes) : Bool :=
  match split stored (chr '$') with
  | [scheme, iterations, salt, expected] =>
    match parseU64 iterations, fromHex salt, fromHex expected with
    | some iterations, some salt, some expected =>
      if scheme ≠ lit "pbkdf2-sha256" || iterations = 0 || iterations > 1000000 || salt.length ≠ 16 ||
          expected.length ≠ DIGEST_SIZE then false
      else constantTimeEqual (pbkdf2Sha256 ssl password salt iterations.toNat DIGEST_SIZE) expected
    | _, _, _ => false
  | _ => false

end Password

/-- Everything random or time-dependent that a command needs. -/
structure ApplyContext where
  salt : Bytes
  newSession : UInt64
  now : Int
  deriving DecidableEq, Repr

/-- The number that `randomBytes(sizeof(u64))` is copied into, low byte first, or 0 if bytes are missing. -/
def ApplyContext.drawn (bytes : Bytes) : UInt64 :=
  if bytes.length = 8 then bytes.foldr (fun (b : UInt8) (n : UInt64) => n <<< 8 ||| b.toUInt64) 0 else 0

/-- A context from what the random generator returned and the clock; the session is masked to 63 bits. -/
def ApplyContext.fresh (salt bytes : Bytes) (now : Int) : ApplyContext :=
  ⟨salt, drawn bytes &&& 0x7fffffffffffffff, now⟩

structure CommandResult where
  response : Bytes
  session : UInt64
  deriving DecidableEq, Repr

structure Seeder where
  endpoint : Endpoint
  peerKey : Bytes
  deriving DecidableEq, Repr

structure SharedFile where
  metadata : FileMetadata
  seeders : OrderedMap Bytes Seeder

/-- `std::set<std::string>`. -/
abbrev NameSet := OrderedMap Bytes Unit

structure Group where
  owner : Bytes
  members : NameSet
  pending : NameSet
  files : OrderedMap Bytes SharedFile

/-- Drop `user` as a seeder of every file, and files left with no seeders. -/
def Group.removeSharesOf (group : Group) (user : Bytes) : Group :=
  { group with
    files := group.files.filterMap (fun _ file =>
      let seeders := file.seeders.erase user
      if seeders.isEmpty then none else some { file with seeders }) }

structure TrackerState where
  users : OrderedMap Bytes Bytes
  sessions : OrderedMap UInt64 Bytes
  groups : OrderedMap Bytes Group

structure Request where
  session : UInt64
  user : Bytes
  args : List Bytes
  context : ApplyContext

namespace Request

/-- The text as the reply, keeping the caller's session. -/
def reply (r : Request) (text : Bytes) : CommandResult := ⟨text, r.session⟩

/-- `args[i]`; handlers index only within the arity that `apply` has checked. -/
def arg (r : Request) (i : Nat) : Bytes := r.args.getD i []

end Request

namespace TrackerState

def empty : TrackerState := ⟨.empty, .empty, .empty⟩

/-- The user logged in with a session, or the empty string. -/
def userOf (s : TrackerState) (session : UInt64) : Bytes := (s.sessions.find session).getD []

def findGroup (s : TrackerState) (name : Bytes) : Option Group := s.groups.find name

def setGroup (s : TrackerState) (name : Bytes) (group : Group) : TrackerState :=
  { s with groups := s.groups.insert name group }

variable (ssl : OpenSsl)

def createUser (s : TrackerState) (r : Request) : TrackerState × CommandResult :=
  if s.users.contains (r.arg 0) then (s, r.reply (lit "ERR user already exists"))
  else
    let stored := Password.hash ssl (r.arg 1) r.context.salt
    if stored.isEmpty then (s, r.reply (lit "ERR secure random generation failed"))
    else ({ s with users := s.users.insert (r.arg 0) stored }, r.reply (lit "OK user created"))

def login (s : TrackerState) (r : Request) : TrackerState × CommandResult :=
  if !r.user.isEmpty then (s, r.reply (lit "ERR logout before logging in again"))
  else
    match s.users.find (r.arg 0) with
    | none => (s, r.reply (lit "ERR no such user"))
    | some stored =>
      if !Password.verify ssl (r.arg 1) stored then (s, r.reply (lit "ERR invalid password"))
      else if r.session = 0 && (r.context.newSession = 0 || s.sessions.contains r.context.newSession) then
        (s, ⟨lit "ERR secure random generation failed", 0⟩)
      else
        let session := if r.session = 0 then r.context.newSession else r.session
        ({ s with sessions := s.sessions.insert session (r.arg 0) }, ⟨lit "OK logged in", session⟩)

def logout (s : TrackerState) (r : Request) : TrackerState × CommandResult :=
  if r.user.isEmpty then (s, r.reply (lit "ERR not logged in"))
  else
    ({ s with
        groups := s.groups.mapValues (fun group => group.removeSharesOf r.user)
        sessions := s.sessions.erase r.session }, ⟨lit "OK logged out", 0⟩)

def createGroup (s : TrackerState) (r : Request) : TrackerState × CommandResult :=
  if s.groups.contains (r.arg 0) then (s, r.reply (lit "ERR group already exists"))
  else
    (s.setGroup (r.arg 0) ⟨r.user, OrderedMap.empty.insert r.user (), .empty, .empty⟩,
      r.reply (lit "OK group created"))

def joinGroup (s : TrackerState) (r : Request) : TrackerState × CommandResult :=
  match s.findGroup (r.arg 0) with
  | none => (s, r.reply (lit "ERR no such group"))
  | some group =>
    if group.members.contains r.user then (s, r.reply (lit "ERR already a member"))
    else if group.pending.contains r.user then (s, r.reply (lit "ERR request already pending"))
    else
      (s.setGroup (r.arg 0) { group with pending := group.pending.insert r.user () },
        r.reply (lit "OK join requested"))

def leaveGroup (s : TrackerState) (r : Request) : TrackerState × CommandResult :=
  match s.findGroup (r.arg 0) with
  | none => (s, r.reply (lit "ERR no such group"))
  | some group =>
    if group.owner = r.user then (s, r.reply (lit "ERR owner cannot leave group"))
    else if !group.members.contains r.user then (s, r.reply (lit "ERR not a member"))
    else
      (s.setGroup (r.arg 0) ({ group with members := group.members.erase r.user }.removeSharesOf r.user),
        r.reply (lit "OK left group"))

/-- `"OK"`, then a space and each name. -/
def listing (names : List Bytes) : Bytes := lit "OK" ++ names.flatMap (fun name => lit " " ++ name)

def listGroups (s : TrackerState) (r : Request) : TrackerState × CommandResult :=
  (s, r.reply (listing s.groups.keys))

def listRequests (s : TrackerState) (r : Request) : TrackerState × CommandResult :=
  match s.findGroup (r.arg 0) with
  | none => (s, r.reply (lit "ERR no such group"))
  | some group =>
    if group.owner ≠ r.user then (s, r.reply (lit "ERR only owner may list requests"))
    else (s, r.reply (listing group.pending.keys))

def acceptRequest (s : TrackerState) (r : Request) : TrackerState × CommandResult :=
  match s.findGroup (r.arg 0) with
  | none => (s, r.reply (lit "ERR no such group"))
  | some group =>
    if group.owner ≠ r.user then (s, r.reply (lit "ERR only owner may accept requests"))
    else if !group.pending.contains (r.arg 1) then (s, r.reply (lit "ERR no such pending request"))
    else
      (s.setGroup (r.arg 0) { group with
          pending := group.pending.erase (r.arg 1), members := group.members.insert (r.arg 1) () },
        r.reply (lit "OK request accepted"))

def removeMember (s : TrackerState) (r : Request) : TrackerState × CommandResult :=
  match s.findGroup (r.arg 0) with
  | none => (s, r.reply (lit "ERR no such group"))
  | some group =>
    if group.owner ≠ r.user then (s, r.reply (lit "ERR only owner may remove members"))
    else if r.arg 1 = group.owner then (s, r.reply (lit "ERR owner cannot be removed"))
    else if !group.members.contains (r.arg 1) then (s, r.reply (lit "ERR not a member"))
    else
      (s.setGroup (r.arg 0) ({ group with members := group.members.erase (r.arg 1) }.removeSharesOf (r.arg 1)),
        r.reply (lit "OK member removed"))

/-- What `upload_file` carries once all of its fields check out. -/
structure Upload where
  name : Bytes
  metadata : FileMetadata
  seeder : Seeder
  deriving DecidableEq, Repr

/-- The field checks of `uploadFile`; `none` is `ERR invalid upload metadata`. -/
def parseUpload (args : List Bytes) : Option Upload :=
  match args with
  | [_, hexName, size, fullHash, hashes, ip, port, hexKey] =>
    match fromHex hexName, parseU64 size, Endpoint.parse (ip ++ lit ":" ++ port), fromHex hexKey with
    | some name, some size, some endpoint, some peerKey =>
      let metadata : FileMetadata := ⟨size, fullHash, FileMetadata.parsePieceHashList hashes⟩
      if name.isEmpty || !metadata.valid || peerKey.length ≠ 32 then none
      else some ⟨name, metadata, ⟨endpoint, peerKey⟩⟩
    | _, _, _, _ => none
  | _ => none

/-- The first upload of a name fixes its metadata; `none` is a conflict. A fresh
`SharedFile` is recognised by its empty hash, as `operator[]` leaves it. -/
def shareFile (existing : Option SharedFile) (upload : Upload) (user : Bytes) : Option SharedFile :=
  let file := existing.getD ⟨⟨0, [], []⟩, .empty⟩
  if file.metadata.fullHash.isEmpty then
    some ⟨upload.metadata, file.seeders.insert user upload.seeder⟩
  else if file.metadata.sameContent upload.metadata then
    some { file with seeders := file.seeders.insert user upload.seeder }
  else none

def uploadFile (s : TrackerState) (r : Request) : TrackerState × CommandResult :=
  match s.findGroup (r.arg 0) with
  | none => (s, r.reply (lit "ERR no such group"))
  | some group =>
    if !group.members.contains r.user then (s, r.reply (lit "ERR not a group member"))
    else
      match parseUpload r.args with
      | none => (s, r.reply (lit "ERR invalid upload metadata"))
      | some upload =>
        match shareFile (group.files.find upload.name) upload r.user with
        -- a conflict needs an entry with a hash, so `operator[]` has inserted nothing
        | none => (s, r.reply (lit "ERR conflicting file metadata"))
        | some file =>
          (s.setGroup (r.arg 0) { group with files := group.files.insert upload.name file },
            r.reply (lit "OK file shared"))

def listFiles (s : TrackerState) (r : Request) : TrackerState × CommandResult :=
  match s.findGroup (r.arg 0) with
  | none => (s, r.reply (lit "ERR no such group"))
  | some group =>
    if !group.members.contains r.user then (s, r.reply (lit "ERR not a group member"))
    else (s, r.reply (listing (group.files.keys.map toHex)))

/-- One access per seeder, in user order; `none` as soon as a key cannot be made. -/
def issueAccesses (ticket : PeerTicket) : List (Bytes × Seeder) → Option (List SeederAccess)
  | [] => some []
  | (_, seeder) :: rest =>
    let access : SeederAccess := ⟨seeder.endpoint, ticket.encode, ticket.key ssl seeder.peerKey⟩
    if access.key.isEmpty then none else (issueAccesses ticket rest).map (access :: ·)

/-- The reply `"META <size> <SHA-1> <piece hashes> <seeder>,<seeder>..."`. -/
def metaReply (metadata : FileMetadata) (accesses : List SeederAccess) : Bytes :=
  lit "META " ++ decimal metadata.size.toNat ++ lit " " ++ metadata.fullHash ++ lit " " ++
    metadata.pieceHashList ++ lit " " ++
    join ((accesses.map SeederAccess.encode).insertionSort (· ≤ ·)) (chr ',')

def downloadFile (s : TrackerState) (r : Request) : TrackerState × CommandResult :=
  match s.findGroup (r.arg 0) with
  | none => (s, r.reply (lit "ERR no such group"))
  | some group =>
    if !group.members.contains r.user then (s, r.reply (lit "ERR not a group member"))
    else
      match fromHex (r.arg 1) with
      | none => (s, r.reply (lit "ERR invalid file name"))
      | some name =>
        match group.files.find name with
        | none => (s, r.reply (lit "ERR file has no online seeders"))
        | some file =>
          if file.seeders.isEmpty then (s, r.reply (lit "ERR file has no online seeders"))
          else
            let ticket : PeerTicket :=
              ⟨r.user, r.arg 0, name, r.context.now + PeerTicket.LIFETIME_SECONDS⟩
            match issueAccesses ssl ticket file.seeders.entries with
            | none => (s, r.reply (lit "ERR could not issue peer tickets"))
            | some accesses => (s, r.reply (metaReply file.metadata accesses))

def stopShare (s : TrackerState) (r : Request) : TrackerState × CommandResult :=
  match s.findGroup (r.arg 0), fromHex (r.arg 1) with
  | some group, some name =>
    match group.files.find name with
    | none => (s, r.reply (lit "ERR you are not sharing this file"))
    | some file =>
      if !file.seeders.contains r.user then (s, r.reply (lit "ERR you are not sharing this file"))
      else
        let seeders := file.seeders.erase r.user
        let files := if seeders.isEmpty then group.files.erase name
          else group.files.insert name { file with seeders }
        (s.setGroup (r.arg 0) { group with files }, r.reply (lit "OK sharing stopped"))
  | _, _ => (s, r.reply (lit "ERR invalid group/file"))

/-- The dispatch table's entry for one command. -/
structure Command where
  handler : TrackerState → Request → TrackerState × CommandResult
  needsLogin : Bool
  /-- Number of arguments, or -1 to let the handler check. -/
  arity : Int
  usage : Bytes

def commands : List (Bytes × Command) := [
  (lit "create_user", ⟨createUser ssl, false, 2, lit "create_user <user> <password>"⟩),
  (lit "login", ⟨login ssl, false, 2, lit "login <user> <password>"⟩),
  (lit "logout", ⟨logout, false, 0, lit "logout"⟩),
  (lit "create_group", ⟨createGroup, true, 1, lit "create_group <group>"⟩),
  (lit "join_group", ⟨joinGroup, true, 1, lit "join_group <group>"⟩),
  (lit "leave_group", ⟨leaveGroup, true, 1, lit "leave_group <group>"⟩),
  (lit "list_groups", ⟨listGroups, true, 0, lit "list_groups"⟩),
  (lit "list_requests", ⟨listRequests, true, 1, lit "list_requests <group>"⟩),
  (lit "accept_request", ⟨acceptRequest, true, 2, lit "accept_request <group> <user>"⟩),
  (lit "remove_member", ⟨removeMember, true, 2, lit "remove_member <group> <user>"⟩),
  (lit "upload_file", ⟨uploadFile, true, -1, lit "upload_file"⟩),
  (lit "list_files", ⟨listFiles, true, 1, lit "list_files <group>"⟩),
  (lit "download_file", ⟨downloadFile ssl, true, 2, lit "download_file <group> <file>"⟩),
  (lit "stop_share", ⟨stopShare, true, 2, lit "stop_share <group> <file>"⟩)]

def apply (s : TrackerState) (session : UInt64) (commandLine : Bytes) (context : ApplyContext) :
    TrackerState × CommandResult :=
  match words commandLine with
  | [] => (s, ⟨lit "ERR empty command", session⟩)
  | name :: args =>
    match (commands ssl).lookup name with
    | none => (s, ⟨lit "ERR unknown command", session⟩)
    | some spec =>
      let request : Request := ⟨session, s.userOf session, args, context⟩
      if spec.needsLogin && request.user.isEmpty then (s, request.reply (lit "ERR login required"))
      else if spec.arity ≥ 0 && (args.length : Int) ≠ spec.arity then
        (s, request.reply (lit "ERR usage: " ++ spec.usage))
      else spec.handler s request

end TrackerState

/-- One call of `TrackerState::apply`. -/
structure Call where
  session : UInt64
  commandLine : Bytes
  context : ApplyContext
  deriving DecidableEq, Repr

namespace TrackerState

/-- The tracker as a machine: a call and its reply. -/
def step (ssl : OpenSsl) (s : TrackerState) (c : Call) : TrackerState × CommandResult :=
  apply ssl s c.session c.commandLine c.context

/-- States reachable from the empty tracker by any sequence of calls. -/
def Reachable (ssl : OpenSsl) (s : TrackerState) : Prop := Machine.Reachable (step ssl) empty s

end TrackerState

end TorrentAtlas
