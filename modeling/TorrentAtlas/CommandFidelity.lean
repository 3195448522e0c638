import TorrentAtlas.CommandLine
import TorrentAtlas.EndToEnd

/-!
# Typed words and the words the tracker reads

The words of a line are sent with spaces between them and cut again at every
blank (`TrackerService.handle_message` is the way in between). What was typed
arrives exactly if no word that travels as it is has a blank in it or is empty.
-/
namespace TorrentAtlas.Client

open Encoding Crypto PieceFile

/-- A word that survives being sent. -/
def Word (w : Bytes) : Prop := w ≠ [] ∧ ∀ b ∈ w, isSpace b = false

instance (w : Bytes) : Decidable (Word w) := inferInstanceAs (Decidable (_ ∧ _))

/-- The requests that typed commands become, each with the words typed for it, file names hex-encoded. An upload
continues with what the client adds. -/
inductive Requested (ssl : OpenSsl) (self : Endpoint) (peerKey : Bytes) (command : CommandLine) :
    Bytes → List Bytes → Prop
  | forwardToTracker (hname : command.name ≠ []) (hquit : command.name ≠ lit "quit")
      (hexecute : execute command = .forwardToTracker) :
      Requested ssl self peerKey command (forwardRequest command) (command.name :: carriedArgs command)
  | uploadFile (group path contents : Bytes) (hexecute : execute command = .uploadFile group path)
      (hsize : contents.length < 2 ^ 63) :
      Requested ssl self peerKey command
        (TrackerClient.shareCommand self peerKey group (filename path) (hash ssl contents))
        [command.name, group, toHex (filename path), decimal (hash ssl contents).size.toNat,
          (hash ssl contents).fullHash, (hash ssl contents).pieceHashList, self.ip, decimal self.port, toHex peerKey]
  | start (group name destination : Bytes) (hexecute : execute command = .start group name destination) :
      Requested ssl self peerKey command (TrackerClient.locateCommand group name) [command.name, group, toHex name]

/-- The typed words of a request come through: those sent as they are have no blanks and none is empty. -/
def Intact (command : CommandLine) : Prop :=
  match execute command with
  | .forwardToTracker => Word command.name ∧ ∀ (i : Nat) (arg : Bytes), command.args[i]? = some arg →
      if command.name = lit "stop_share" ∧ i = 1 then arg ≠ [] else Word arg
  | .uploadFile group path => Word group ∧ filename path ≠ []
  | .start group name _ => Word group ∧ name ≠ []
  | _ => True

theorem word_of_mem {text : Bytes} {list : List Bytes} (h : words text = list) : ∀ w ∈ list, Word w := by
  rintro w hw
  rw [← h] at hw
  exact Delimited.of_mem_words hw

theorem word_toHex {name : Bytes} : Word (toHex name) ↔ name ≠ [] := by
  constructor
  · rintro ⟨hne, -⟩
    simpa using hne
  · intro hne
    exact ⟨by simpa using hne, fun b hb => TrackerClient.isSpace_of_isXDigit (isXDigit_of_mem_toHex hb)⟩

/-- The address a client was started with has no NUL byte, so it is an address all through. -/
theorem word_ip {address : Bytes} {self : Endpoint} (hself : Endpoint.parse address = some self)
    (haddress : 0 ∉ address) : Word self.ip := by
  obtain ⟨hwf, port, -, htext⟩ := Endpoint.parse_eq_some hself
  have hzero : 0 ∉ self.ip := fun h => haddress (by rw [htext]; exact List.mem_append_left _ h)
  have haccepted := hwf.address
  rw [cStr_of_not_mem hzero] at haccepted
  refine ⟨hwf.ip_ne_nil, fun b hb => ?_⟩
  rcases of_mem_inetPton haccepted hb with hdigit | rfl
  · exact TrackerClient.isSpace_of_isDigit hdigit
  · decide

theorem forwardRequest_eq (command : CommandLine) :
    forwardRequest command = [chr ' '].intercalate (command.name :: carriedArgs command) := by
  have hspace : ∀ request arg : Bytes, request ++ lit " " ++ arg = request ++ chr ' ' :: arg := by
    intro request arg
    simp [lit, chr]
  rw [← join_eq, forwardRequest, join]
  simp only [hspace]

/-- The request of a forwarded command is read back exactly if all its words are words. -/
theorem words_forwardRequest (command : CommandLine) :
    words (forwardRequest command) = command.name :: carriedArgs command ↔
      ∀ w ∈ command.name :: carriedArgs command, Word w := by
  constructor
  · exact word_of_mem
  · intro h
    rw [forwardRequest_eq]
    exact Delimited.words_intercalate (by decide) h

theorem forall_carriedArgs (command : CommandLine) : (∀ w ∈ carriedArgs command, Word w) ↔
    ∀ (i : Nat) (arg : Bytes), command.args[i]? = some arg →
      if command.name = lit "stop_share" ∧ i = 1 then arg ≠ [] else Word arg := by
  have hat : ∀ (i : Nat) (arg : Bytes), Word (if command.name = lit "stop_share" ∧ i = 1 then toHex arg else arg) ↔
      if command.name = lit "stop_share" ∧ i = 1 then arg ≠ [] else Word arg := by
    intro i arg
    split
    · exact word_toHex
    · rfl
  constructor
  · intro h i arg hi
    refine (hat i arg).mp (h _ (List.mem_of_getElem? (i := i) ?_))
    rw [carriedArgs, List.getElem?_mapIdx, hi, Option.map_some]
  · intro h w hw
    obtain ⟨i, hi⟩ := List.mem_iff_getElem?.mp hw
    rw [carriedArgs, List.getElem?_mapIdx] at hi
    obtain ⟨arg, harg, rfl⟩ := Option.map_eq_some_iff.mp hi
    exact (hat i arg).mpr (h i arg harg)

theorem execute_eq_uploadFile {command : CommandLine} {group path : Bytes}
    (h : execute command = .uploadFile group path) : command.name = lit "upload_file" := by
  by_contra hname
  rw [execute, if_neg hname] at h
  split_ifs at h
  · split at h <;> simp at h
  · split at h <;> simp at h

theorem execute_eq_start {command : CommandLine} {group name destination : Bytes}
    (h : execute command = .start group name destination) : command.name = lit "download_file" := by
  by_contra hname
  rw [execute, if_neg hname] at h
  split_ifs at h
  · split at h <;> simp at h
  · split at h <;> simp at h

/-- For every line and every request it becomes: the tracker reads the words that were typed exactly if they come
through. -/
theorem request_words_iff (ssl : OpenSsl) (self : Endpoint) (address peerKey : Bytes)
    (hself : Endpoint.parse address = some self) (haddress : 0 ∉ address) (hkey : peerKey.length = 32)
    (line text : Bytes) (typed : List Bytes)
    (h : Requested ssl self peerKey (CommandLine.parse line) text typed) :
    words text = typed ↔ Intact (CommandLine.parse line) := by
  generalize CommandLine.parse line = command at h
  cases h with
  | forwardToTracker hname hquit hexecute =>
    rw [words_forwardRequest, List.forall_mem_cons, forall_carriedArgs, Intact, hexecute]
  | uploadFile group path contents hexecute hsize =>
    rw [Intact, hexecute, execute_eq_uploadFile hexecute]
    constructor
    · intro hwords
      have hword := word_of_mem hwords
      exact ⟨hword _ (by simp), word_toHex.mp (hword _ (by simp))⟩
    · rintro ⟨hgroup, hname⟩
      have hbound : contents.length < u64Bound := by
        simp only [u64Bound]
        omega
      exact TrackerState.words_shareCommand (word_ip hself haddress) hgroup hname (valid_hash ssl hbound)
        (by rintro rfl; simp at hkey)
  | start group name destination hexecute =>
    rw [Intact, hexecute, execute_eq_start hexecute]
    constructor
    · intro hwords
      have hword := word_of_mem hwords
      exact ⟨hword _ (by simp), word_toHex.mp (hword _ (by simp))⟩
    · rintro ⟨hgroup, hname⟩
      exact TrackerState.words_locateCommand hgroup hname

section Example

def exampleSelf : Endpoint := ⟨lit "10.0.0.1", 6881⟩

def joinLine : Bytes := lit "join group g"

/-- A member of `g` puts the group and the user into one pair of quotes. -/
def quotedLine : Bytes := lit "accept_request \"g bob\""

theorem request_words_join : words (forwardRequest (CommandLine.parse joinLine)) =
    (CommandLine.parse joinLine).name :: carriedArgs (CommandLine.parse joinLine) := by
  have hexecute : execute (CommandLine.parse joinLine) = .forwardToTracker := by decide +kernel
  have hargs : (CommandLine.parse joinLine).args = [lit "g"] := by decide +kernel
  refine (request_words_iff TrackerState.recording.replay exampleSelf (lit "10.0.0.1:6881") (List.replicate 32 1)
    (by decide +kernel) (by decide) (by decide) joinLine _ _
    (.forwardToTracker (by decide +kernel) (by decide +kernel) hexecute)).mpr ?_
  rw [Intact, hexecute]
  refine ⟨by decide +kernel, fun i arg harg => ?_⟩
  rw [hargs] at harg
  rw [if_neg (fun h => absurd h.1 (by decide +kernel)), List.mem_singleton.mp (List.mem_of_getElem? harg)]
  decide +kernel

/-- Two words were typed, and the tracker reads three. -/
theorem request_words_quoted : Requested TrackerState.recording.replay exampleSelf (List.replicate 32 1)
      (CommandLine.parse quotedLine) (lit "accept_request g bob") [lit "accept_request", lit "g bob"] ∧
    words (lit "accept_request g bob") = [lit "accept_request", lit "g", lit "bob"] ∧
    words (lit "accept_request g bob") ≠ [lit "accept_request", lit "g bob"] := by
  have htext : forwardRequest (CommandLine.parse quotedLine) = lit "accept_request g bob" := by decide +kernel
  have htyped : (CommandLine.parse quotedLine).name :: carriedArgs (CommandLine.parse quotedLine) =
      [lit "accept_request", lit "g bob"] := by decide +kernel
  rw [← htext, ← htyped]
  exact ⟨.forwardToTracker (by decide +kernel) (by decide +kernel) (by decide +kernel), by decide +kernel,
    by decide +kernel⟩

end Example

end TorrentAtlas.Client
