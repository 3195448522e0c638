import TorrentAtlas.TrackerClient
import TorrentAtlas.PieceFile

/-!
# What the user types (`client/command_line.cpp`, `client/client.cpp`)

A line is cut into words with quotes and escapes, its first one or two words are
the command, and most commands become a request to the tracker: the words again,
with spaces between them.
-/
namespace TorrentAtlas

open Encoding Crypto

/-- The locals of `parseCommandWords`; a `quote` of zero is none. -/
structure WordScan where
  words : List Bytes
  current : Bytes
  quote : UInt8
  escaped : Bool
  inWord : Bool
  deriving DecidableEq, Repr

namespace WordScan

def singleQuote : UInt8 := 39
def doubleQuote : UInt8 := 34
def backslash : UInt8 := 92

def start : WordScan := ⟨[], [], 0, false, false⟩

/-- One character of the loop. -/
def step (s : WordScan) (c : UInt8) : WordScan :=
  if s.escaped then { s with current := s.current ++ [c], escaped := false, inWord := true }
  else if c = backslash then { s with escaped := true, inWord := true }
  else if s.quote ≠ 0 then
    if c = s.quote then { s with quote := 0, inWord := true }
    else { s with current := s.current ++ [c], inWord := true }
  else if c = singleQuote ∨ c = doubleQuote then { s with quote := c, inWord := true }
  else if isSpace c then
    { s with words := if s.inWord then s.words ++ [s.current] else s.words, current := [], inWord := false }
  else { s with current := s.current ++ [c], inWord := true }

/-- After the loop. -/
def finish (s : WordScan) : List Bytes :=
  let current := if s.escaped then s.current ++ [backslash] else s.current
  if s.inWord then s.words ++ [current] else s.words

end WordScan

def parseCommandWords (line : Bytes) : List Bytes := (line.foldl WordScan.step WordScan.start).finish

structure CommandLine where
  name : Bytes
  args : List Bytes
  deriving DecidableEq, Repr

namespace CommandLine

def verbs : List Bytes :=
  [lit "create", lit "join", lit "leave", lit "list", lit "accept", lit "upload", lit "download", lit "stop",
    lit "show", lit "cancel", lit "remove"]

def parse (line : Bytes) : CommandLine :=
  match parseCommandWords line with
  | [] => ⟨[], []⟩
  | [name] => ⟨name, []⟩
  | name :: second :: args =>
    if chr '_' ∉ name ∧ name ∈ verbs then ⟨name ++ lit "_" ++ second, args⟩ else ⟨name, second :: args⟩

example : parse (lit "create user alice pw") = ⟨lit "create_user", [lit "alice", lit "pw"]⟩ := by decide +kernel

end CommandLine

namespace Client

/-- `std::filesystem::path(path).filename()`. -/
def filename (path : Bytes) : Bytes := (path.reverse.takeWhile (· ≠ chr '/')).reverse

/-- The arguments in the form in which they travel: file names hex-encoded. -/
def carriedArgs (command : CommandLine) : List Bytes :=
  command.args.mapIdx (fun i arg => if command.name = lit "stop_share" ∧ i = 1 then toHex arg else arg)

/-- The request that `forwardToTracker` builds. -/
def forwardRequest (command : CommandLine) : Bytes :=
  (carriedArgs command).foldl (fun request arg => request ++ lit " " ++ arg) command.name

/-- The function that `execute` hands a command to. -/
inductive Route
  | usage
  | uploadFile (group path : Bytes)
  | start (group name destination : Bytes)
  | printDownloads
  | cancel (name : Bytes)
  | forwardToTracker
  deriving DecidableEq, Repr

def execute (command : CommandLine) : Route :=
  if command.name = lit "upload_file" then
    match command.args with
    | group :: path :: _ => .uploadFile group path
    | _ => .usage
  else if command.name = lit "download_file" then
    match command.args with
    | group :: name :: destination :: _ => .start group name destination
    | _ => .usage
  else if command.name = lit "show_downloads" then .printDownloads
  else if command.name = lit "cancel_download" then
    match command.args with
    | name :: _ => .cancel name
    | _ => .usage
  else .forwardToTracker

end Client

end TorrentAtlas
