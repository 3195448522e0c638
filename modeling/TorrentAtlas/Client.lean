import TorrentAtlas.CommandLine
import TorrentAtlas.Download
import TorrentAtlas.FileSystem
import TorrentAtlas.PeerServer
import TorrentAtlas.Library.Machine

/-!
# A client at work (`client/client.cpp`, `client/download/download_manager.cpp`)

The prompt, the downloads and the peer server are threads that share the files of
the computer and the table of shared files. A step is one access to these by one
thread, and the steps of different threads come in any order. Nobody else touches
the files, and the directories stay as they are.
-/
namespace TorrentAtlas

open Encoding Crypto PieceFile

/-- A download, with the files it has opened for the pieces and for the final hash. -/
structure Task where
  download : Download
  file : Option Nat
  input : Option Nat

def Task.cancel (t : Task) : Task := { t with download := { t.download with cancelled := true } }

namespace Client

/-- What a client is started with, and how its computer resolves paths. -/
structure Host where
  self : Endpoint
  peerKey : Bytes
  resolve : Bytes → Bytes

/-- Where the prompt thread stands. -/
inductive Prompt
  | reading
  /-- In `~DownloadManager`: about to cancel a download. -/
  | closing (next : Nat)
  /-- `uploadFile`: about to open the file, reading it, waiting for the tracker, about to add it. -/
  | opening (group path : Bytes)
  | hashing (group path : Bytes) (file : Nat) (data : Bytes)
  | sharing (group path : Bytes) (metadata : FileMetadata)
  | adding (group path : Bytes) (metadata : FileMetadata)
  /-- `DownloadManager::start`: before each of its checks, waiting for the tracker, about to start the download. -/
  | resolving (group name destination : Bytes)
  | probing (group name path : Bytes)
  | checking (group name path : Bytes)
  | locating (group name path : Bytes)
  | starting (group name path : Bytes) (metadata : FileMetadata) (seeders : List SeederAccess)
  | cancelling (name : Bytes)
  /-- `forwardToTracker`: waiting for the tracker; it has answered OK. -/
  | forwarding (command : CommandLine)
  | mirroring (command : CommandLine)
  deriving DecidableEq, Repr

/-- How the outside answers a step of the prompt thread. -/
inductive Input
  | ok
  | fail
  | io (outcome : Transfer)
  | reply (reply : Option Bytes)
  deriving DecidableEq, Repr

inductive Action
  | type (line : Bytes)
  | prompt (input : Input)
  | main (i : Nat) (input : Download.Input)
  | worker (i k : Nat) (input : Download.Input)
  /-- A peer's request, with the clock, the nonce of the reply and how reading the file goes. -/
  | peer (now : Int) (io : List Transfer) (random request : Bytes)
  deriving DecidableEq, Repr

/-- The download that takes the step, and its own step. -/
def Action.download : Action → Option (Nat × Download.Action)
  | .main i input => some (i, .main input)
  | .worker i k input => some (i, .worker k input)
  | _ => none

/-- What others see of a step. -/
inductive Output
  | none
  | effect (effect : Download.Effect)
  | request (text : Bytes)
  | answer (text : Bytes)
  deriving DecidableEq, Repr

/-- `(fs::path(directory) / name).string()`. -/
def inDirectory (directory name : Bytes) : Bytes :=
  if (lit "/").isPrefixOf name then name
  else if directory.getLast? = some (chr '/') then directory ++ name
  else directory ++ lit "/" ++ name

/-- The response `TrackerClient::request` stores. -/
def response (reply : Option Bytes) : Bytes := (TrackerClient.request 0 reply).response

def isOk (reply : Option Bytes) : Bool := (lit "OK").isPrefixOf (response reply)

/-- `DownloadManager::cancel`: the last unfinished download with this name. -/
def cancelLast (name : Bytes) (downloads : List Task) : List Task :=
  match downloads.reverse.findIdx? (fun t => t.download.name = name && !t.download.isFinished) with
  | none => downloads
  | some k => downloads.modify (downloads.length - 1 - k) Task.cancel

end Client

/-- A client and the files of its computer. -/
structure Client where
  prompt : Client.Prompt
  downloads : List Task
  shared : SharedFiles
  files : FileSystem

namespace Client

variable (ssl : OpenSsl) (host : Host) (c : Client)

/-- `execute`, as far as the first access to something shared. -/
def typed (line : Bytes) : Client × Output :=
  let command := CommandLine.parse line
  if command.name = lit "quit" then ({ c with prompt := .closing 0 }, .none)
  else if command.name.isEmpty then (c, .none)
  else
    match execute command with
    | .uploadFile group path => ({ c with prompt := .opening group path }, .none)
    | .start group name destination => ({ c with prompt := .resolving group name destination }, .none)
    | .cancel name => ({ c with prompt := .cancelling name }, .none)
    | .forwardToTracker => ({ c with prompt := .forwarding command }, .request (forwardRequest command))
    | .printDownloads | .usage => (c, .none)

/-- The end of `forwardToTracker`. -/
def mirror (shared : SharedFiles) (command : CommandLine) : SharedFiles :=
  if command.name = lit "stop_share" then
    match command.args with
    | group :: name :: _ => shared.remove group name
    | _ => shared
  else if command.name = lit "leave_group" then
    match command.args with
    | group :: _ => shared.removeGroup group
    | _ => shared
  else if command.name = lit "logout" then shared.clear
  else shared

def promptStep (input : Input) : Client × Output :=
  match c.prompt with
  | .reading => (c, .none)
  | .closing next =>
    if next < c.downloads.length then
      ({ c with prompt := .closing (next + 1), downloads := c.downloads.modify next Task.cancel }, .none)
    else (c, .none)
  | .opening group path =>
    match c.files.lookup host.resolve path with
    | none => ({ c with prompt := .reading }, .none)
    | some file =>
      if input = .fail then ({ c with prompt := .reading }, .none)
      else ({ c with prompt := .hashing group path file [] }, .none)
  | .hashing group path file data =>
    match input with
    | .io outcome =>
      match hashStep ssl (c.files.read (some file)) data outcome with
      | .failed => ({ c with prompt := .reading }, .none)
      | .more data => ({ c with prompt := .hashing group path file data }, .none)
      | .done metadata =>
        ({ c with prompt := .sharing group path metadata },
          .request (TrackerClient.shareCommand host.self host.peerKey group (filename path) metadata))
    | _ => (c, .none)
  | .sharing group path metadata =>
    match input with
    | .reply reply => ({ c with prompt := if isOk reply then .adding group path metadata else .reading }, .none)
    | _ => (c, .none)
  | .adding group path metadata =>
    ({ c with
        prompt := .reading
        shared := c.shared.add group (filename path) ⟨path, metadata, List.replicate metadata.pieceCount true⟩ }, .none)
  | .resolving group name destination =>
    let path := if input ≠ .fail && c.files.isDirectory host.resolve destination then inDirectory destination name
      else destination
    ({ c with prompt := .probing group name path }, .none)
  | .probing group name path =>
    ({ c with
        prompt := if input ≠ .fail && c.files.existsAt host.resolve path then .reading else .checking group name path },
      .none)
  | .checking group name path =>
    if c.downloads.any (fun t => !t.download.isFinished && t.download.destination = path) then
      ({ c with prompt := .reading }, .none)
    else ({ c with prompt := .locating group name path }, .request (TrackerClient.locateCommand group name))
  | .locating group name path =>
    match input with
    | .reply reply =>
      match TrackerClient.locate 0 reply with
      | .ok (metadata, seeders) => ({ c with prompt := .starting group name path metadata seeders }, .none)
      | .error _ => ({ c with prompt := .reading }, .none)
    | _ => (c, .none)
  | .starting group name path metadata seeders =>
    ({ c with
        prompt := .reading
        downloads := c.downloads ++ [⟨Download.create group name path metadata seeders, none, none⟩] }, .none)
  | .cancelling name => ({ c with prompt := .reading, downloads := cancelLast name c.downloads }, .none)
  | .forwarding command =>
    match input with
    | .reply reply => ({ c with prompt := if isOk reply then .mirroring command else .reading }, .none)
    | _ => (c, .none)
  | .mirroring command => ({ c with prompt := .reading, shared := mirror c.shared command }, .none)

/-- What a download's step finds. -/
def view (t : Task) : Download.View :=
  ⟨c.files.contentsAt host.resolve t.download.partPath, c.files.read t.file, c.files.read t.input⟩

/-- The client after the `i`-th download has become `d` with this effect. -/
def apply (i : Nat) (t : Task) (d : Download) (effect : Download.Effect) : Client :=
  let t := { t with download := d }
  let resumed := { c with downloads := c.downloads.set i t }
  match effect with
  | .openPart =>
    let opened := c.files.create host.resolve d.partPath
    { c with downloads := c.downloads.set i { t with file := some opened.2 }, files := opened.1 }
  | .write contents => { resumed with files := c.files.write t.file contents }
  | .openInput =>
    { c with downloads := c.downloads.set i { t with input := c.files.lookup host.resolve d.partPath } }
  | .rename => { resumed with files := c.files.rename host.resolve d.partPath d.destination }
  | .add file => { resumed with shared := c.shared.add d.group d.name file }
  | .markAvailable piece => { resumed with shared := c.shared.markAvailable d.group d.name piece }
  | .none | .share => resumed

def downloadStep (i : Nat) (action : Download.Action) : Client × Output :=
  match c.downloads[i]? with
  | none => (c, .none)
  | some t =>
    let result := t.download.step ssl (c.view host t) action
    (c.apply host i t result.1 result.2, .effect result.2)

def step : Action → Client × Output
  | .type line => if c.prompt = .reading then c.typed line else (c, .none)
  | .prompt input => c.promptStep ssl host input
  | .main i input => c.downloadStep ssl host i (.main input)
  | .worker i k input => c.downloadStep ssl host i (.worker k input)
  | .peer now io random request =>
    (c, .answer (PeerServer.respond ssl host.peerKey c.shared ⟨c.files.contentsAt host.resolve, io⟩ now random request))

section Inversion

variable {ssl : OpenSsl} {host : Host} {c : Client}

/-- What typing a line can do at once. -/
inductive Typed (c : Client) (line : Bytes) : Client × Output → Prop
  | stay : Typed c line (c, .none)
  | quit : Typed c line ({ c with prompt := .closing 0 }, .none)
  | upload {group path : Bytes} (hexecute : execute (CommandLine.parse line) = .uploadFile group path) :
      Typed c line ({ c with prompt := .opening group path }, .none)
  | start {group name destination : Bytes}
      (hexecute : execute (CommandLine.parse line) = .start group name destination) :
      Typed c line ({ c with prompt := .resolving group name destination }, .none)
  | cancel {name : Bytes} (hexecute : execute (CommandLine.parse line) = .cancel name) :
      Typed c line ({ c with prompt := .cancelling name }, .none)
  | forward (hexecute : execute (CommandLine.parse line) = .forwardToTracker) :
      Typed c line ({ c with prompt := .forwarding (CommandLine.parse line) },
        .request (forwardRequest (CommandLine.parse line)))

theorem typed_cases (c : Client) (line : Bytes) : Typed c line (c.typed line) := by
  unfold typed
  dsimp only
  split_ifs
  · exact .quit
  · exact .stay
  · split
    · next hexecute => exact .upload hexecute
    · next hexecute => exact .start hexecute
    · next hexecute => exact .cancel hexecute
    · next hexecute => exact .forward hexecute
    · exact .stay
    · exact .stay

/-- What a step of a command can be: where the prompt stands, what it has found, and the result. -/
inductive PromptStep (ssl : OpenSsl) (host : Host) (c : Client) : Input → Client × Output → Prop
  /-- It waits for its input. -/
  | stay {input : Input} : PromptStep ssl host c input (c, .none)
  /-- It is over, with nothing done. -/
  | abandon {input : Input} : PromptStep ssl host c input ({ c with prompt := .reading }, .none)
  | close {input : Input} {next : Nat} (hprompt : c.prompt = .closing next) :
      PromptStep ssl host c input
        ({ c with prompt := .closing (next + 1), downloads := c.downloads.modify next Task.cancel }, .none)
  | opened {input : Input} {group path : Bytes} {file : Nat} (hprompt : c.prompt = .opening group path)
      (hfile : c.files.lookup host.resolve path = some file) :
      PromptStep ssl host c input ({ c with prompt := .hashing group path file [] }, .none)
  | hashOn {group path data data' : Bytes} {file : Nat} {outcome : Transfer}
      (hprompt : c.prompt = .hashing group path file data)
      (hhash : hashStep ssl (c.files.read (some file)) data outcome = .more data') :
      PromptStep ssl host c (.io outcome) ({ c with prompt := .hashing group path file data' }, .none)
  | hashed {group path data : Bytes} {file : Nat} {outcome : Transfer} {metadata : FileMetadata}
      (hprompt : c.prompt = .hashing group path file data)
      (hhash : hashStep ssl (c.files.read (some file)) data outcome = .done metadata) :
      PromptStep ssl host c (.io outcome) ({ c with prompt := .sharing group path metadata },
        .request (TrackerClient.shareCommand host.self host.peerKey group (filename path) metadata))
  | shared {group path : Bytes} {metadata : FileMetadata} {reply : Option Bytes}
      (hprompt : c.prompt = .sharing group path metadata) (hok : isOk reply = true) :
      PromptStep ssl host c (.reply reply) ({ c with prompt := .adding group path metadata }, .none)
  | add {input : Input} {group path : Bytes} {metadata : FileMetadata}
      (hprompt : c.prompt = .adding group path metadata) : PromptStep ssl host c input
        ({ c with
            prompt := .reading
            shared := c.shared.add group (filename path) ⟨path, metadata, List.replicate metadata.pieceCount true⟩ },
          .none)
  | resolve {input : Input} {group name destination : Bytes} (hprompt : c.prompt = .resolving group name destination)
      (path : Bytes) : PromptStep ssl host c input ({ c with prompt := .probing group name path }, .none)
  | probe {input : Input} {group name path : Bytes} (hprompt : c.prompt = .probing group name path) :
      PromptStep ssl host c input ({ c with prompt := .checking group name path }, .none)
  | check {input : Input} {group name path : Bytes} (hprompt : c.prompt = .checking group name path)
      (hnone : ¬ c.downloads.any (fun t => !t.download.isFinished && t.download.destination = path)) :
      PromptStep ssl host c input
        ({ c with prompt := .locating group name path }, .request (TrackerClient.locateCommand group name))
  | locate {group name path : Bytes} {reply : Option Bytes} {metadata : FileMetadata} {seeders : List SeederAccess}
      (hprompt : c.prompt = .locating group name path)
      (hreply : TrackerClient.locate 0 reply = .ok (metadata, seeders)) :
      PromptStep ssl host c (.reply reply) ({ c with prompt := .starting group name path metadata seeders }, .none)
  | start {input : Input} {group name path : Bytes} {metadata : FileMetadata} {seeders : List SeederAccess}
      (hprompt : c.prompt = .starting group name path metadata seeders) :
      PromptStep ssl host c input
        ({ c with
            prompt := .reading
            downloads := c.downloads ++ [⟨Download.create group name path metadata seeders, none, none⟩] }, .none)
  | cancel {input : Input} {name : Bytes} (hprompt : c.prompt = .cancelling name) :
      PromptStep ssl host c input ({ c with prompt := .reading, downloads := cancelLast name c.downloads }, .none)
  | forward {command : CommandLine} {reply : Option Bytes} (hprompt : c.prompt = .forwarding command)
      (hok : isOk reply = true) : PromptStep ssl host c (.reply reply) ({ c with prompt := .mirroring command }, .none)
  | mirror {input : Input} {command : CommandLine} (hprompt : c.prompt = .mirroring command) :
      PromptStep ssl host c input ({ c with prompt := .reading, shared := mirror c.shared command }, .none)

theorem promptStep_cases (ssl : OpenSsl) (host : Host) (c : Client) (input : Input) :
    PromptStep ssl host c input (c.promptStep ssl host input) := by
  unfold promptStep
  split
  case h_1 => exact .stay
  case h_2 hprompt =>
    split
    · exact .close hprompt
    · exact .stay
  case h_3 hprompt =>
    split
    · exact .abandon
    · next hfile =>
      split
      · exact .abandon
      · exact .opened hprompt hfile
  case h_4 hprompt =>
    split
    · split
      · exact .abandon
      · next hhash => exact .hashOn hprompt hhash
      · next hhash => exact .hashed hprompt hhash
    · exact .stay
  case h_5 hprompt =>
    split
    · next reply =>
      cases hok : isOk reply with
      | true => exact .shared hprompt hok
      | false => exact .abandon
    · exact .stay
  case h_6 hprompt => exact .add hprompt
  case h_7 hprompt => exact .resolve hprompt _
  case h_8 hprompt =>
    split
    · exact .abandon
    · exact .probe hprompt
  case h_9 hprompt =>
    split
    · exact .abandon
    · next hnone => exact .check hprompt hnone
  case h_10 hprompt =>
    split
    · split
      · next hreply => exact .locate hprompt hreply
      · exact .abandon
    · exact .stay
  case h_11 hprompt => exact .start hprompt
  case h_12 hprompt => exact .cancel hprompt
  case h_13 hprompt =>
    split
    · next reply =>
      cases hok : isOk reply with
      | true => exact .forward hprompt hok
      | false => exact .abandon
    · exact .stay
  case h_14 hprompt => exact .mirror hprompt

theorem apply_downloads (i : Nat) (t : Task) (d : Download) (effect : Download.Effect) :
    ∃ t', t'.download = d ∧ (c.apply host i t d effect).downloads = c.downloads.set i t' := by
  cases effect <;> exact ⟨_, rfl, rfl⟩

@[simp] theorem apply_prompt (i : Nat) (t : Task) (d : Download) (effect : Download.Effect) :
    (c.apply host i t d effect).prompt = c.prompt := by
  cases effect <;> rfl

/-- How a step may change the list of downloads: not at all, by a step of one of them, or by a new one at the end. -/
inductive Moves (ssl : OpenSsl) (c : Client) (action : Action) : List Task → Prop
  | same : Moves ssl c action c.downloads
  | one (i : Nat) (t t' : Task) (view : Download.View) (a : Download.Action) (hat : c.downloads[i]? = some t)
      (hstep : t'.download = (t.download.step ssl view a).1) : Moves ssl c action (c.downloads.set i t')
  | new (group name path : Bytes) (metadata : FileMetadata) (seeders : List SeederAccess) (input : Input)
      (hprompt : c.prompt = .starting group name path metadata seeders) (haction : action = .prompt input) :
      Moves ssl c action (c.downloads ++ [⟨Download.create group name path metadata seeders, none, none⟩])

theorem moves_cancel {action : Action} (i : Nat) : Moves ssl c action (c.downloads.modify i Task.cancel) := by
  cases h : c.downloads[i]? with
  | none =>
    rw [List.modify_eq_self (List.getElem?_eq_none_iff.mp h)]
    exact .same
  | some t =>
    have hset : c.downloads.modify i Task.cancel = c.downloads.set i t.cancel := by
      rw [List.modify_eq_set_getElem?, h]
      rfl
    rw [hset]
    exact .one i t t.cancel ⟨none, [], []⟩ .cancel h rfl

theorem moves_cancelLast {action : Action} (name : Bytes) : Moves ssl c action (cancelLast name c.downloads) := by
  unfold cancelLast
  split
  · exact .same
  · exact moves_cancel _

theorem typed_downloads (line : Bytes) : (c.typed line).1.downloads = c.downloads := by
  have hcases := typed_cases c line
  generalize c.typed line = result at hcases ⊢
  cases hcases <;> rfl

theorem promptStep_moves (input : Input) :
    Moves ssl c (.prompt input) (c.promptStep ssl host input).1.downloads := by
  have hcases := promptStep_cases ssl host c input
  generalize c.promptStep ssl host input = result at hcases ⊢
  cases hcases with
  | close => exact moves_cancel _
  | start hprompt => exact .new _ _ _ _ _ _ hprompt rfl
  | cancel => exact moves_cancelLast _
  | _ => exact .same

theorem downloadStep_moves {action : Action} (i : Nat) (a : Download.Action) :
    Moves ssl c action (c.downloadStep ssl host i a).1.downloads := by
  unfold downloadStep
  split
  · exact .same
  · next t hat =>
    dsimp only
    obtain ⟨t', hdownload, hset⟩ := @apply_downloads host c i t
      (t.download.step ssl (c.view host t) a).1 (t.download.step ssl (c.view host t) a).2
    rw [hset]
    exact .one i t t' _ a hat hdownload

theorem downloadStep_prompt (i : Nat) (action : Download.Action) :
    (c.downloadStep ssl host i action).1.prompt = c.prompt := by
  unfold downloadStep
  split
  · rfl
  · exact apply_prompt _ _ _ _

theorem step_moves (action : Action) : Moves ssl c action (c.step ssl host action).1.downloads := by
  cases action with
  | type line =>
    simp only [step]
    split
    · rw [typed_downloads]
      exact .same
    · exact .same
  | prompt input => exact promptStep_moves input
  | main i input => exact downloadStep_moves i _
  | worker i k input => exact downloadStep_moves i _
  | peer => exact .same

theorem typed_output (line : Bytes) (effect : Download.Effect) : (c.typed line).2 ≠ .effect effect := by
  have hcases := typed_cases c line
  generalize c.typed line = result at hcases ⊢
  cases hcases <;> simp

theorem promptStep_output (input : Input) (effect : Download.Effect) :
    (c.promptStep ssl host input).2 ≠ .effect effect := by
  have hcases := promptStep_cases ssl host c input
  generalize c.promptStep ssl host input = result at hcases ⊢
  cases hcases <;> simp

/-- The effect of a step is that of the download that takes it. -/
theorem of_step_effect {action : Action} {effect : Download.Effect} (h : (c.step ssl host action).2 = .effect effect) :
    ∃ i a t, action.download = some (i, a) ∧ c.downloads[i]? = some t ∧
      effect = (t.download.step ssl (c.view host t) a).2 := by
  have hdownload : ∀ i a, (c.downloadStep ssl host i a).2 = .effect effect → ∃ t, c.downloads[i]? = some t ∧
      effect = (t.download.step ssl (c.view host t) a).2 := by
    intro i a h
    unfold downloadStep at h
    split at h
    · simp at h
    · next t hat =>
      simp only [Output.effect.injEq] at h
      exact ⟨t, hat, h.symm⟩
  cases action with
  | type line =>
    simp only [step] at h
    split at h
    · exact absurd h (typed_output line effect)
    · simp at h
  | prompt input => exact absurd h (promptStep_output input effect)
  | main i input =>
    obtain ⟨t, hat, heffect⟩ := hdownload i _ h
    exact ⟨i, _, t, rfl, hat, heffect⟩
  | worker i k input =>
    obtain ⟨t, hat, heffect⟩ := hdownload i _ h
    exact ⟨i, _, t, rfl, hat, heffect⟩
  | peer => simp [step] at h

end Inversion

/-- A client that has just been started. -/
def init (files : FileSystem) : Client := ⟨.reading, [], SharedFiles.empty, files⟩

section Example

def noFiles : FileSystem := ⟨OrderedMap.empty, [], [], by simp⟩

/-- A reply to `download_file` with one seeder. -/
def exampleReply (metadata : Bytes) : Input :=
  .reply (some (lit "META " ++ metadata ++ lit " 10.0.0.1:6881/626f62.67.66.1300/" ++ toHex (List.replicate 32 1) ++
    lit "\t9"))

/-- The prompt takes a `download_file` command as far as the new download. -/
def startsDownload (line : Bytes) (reply : Input) : List Action :=
  [.type line, .prompt .ok, .prompt .ok, .prompt .ok, .prompt reply, .prompt .ok]

/-- The first download, of one piece, finds a seeder that has it and starts to fetch. -/
def prepares : List Action := List.flatten [
  List.replicate 4 (.main 0 .ok), [.main 0 (.reply 1000 none (.success, [1]))], List.replicate 3 (.main 0 .ok)]

/-- It receives its piece and completes. -/
def finishes (data : Bytes) : List Action := List.flatten [
  List.replicate 3 (.worker 0 0 .ok), [.worker 0 0 (.reply 1000 none (.success, data))],
  [.worker 0 0 (.io (.upTo data.length))], List.replicate 5 (.worker 0 0 .ok), List.replicate 2 (.main 0 .ok),
  [.main 0 (.io (.upTo 0))], List.replicate 4 (.main 0 .ok)]

end Example

end Client

end TorrentAtlas
