import TorrentAtlas.TrackerWire

/-!
# The tracker's log (`tracker/tracker_log.cpp`)

`handle` logs a line for every request. `safeCommand` cuts the command line into words
once more, as `apply` does, and shows the arguments that are no secrets; what follows
them leaves one mark, whatever and however much it is.
-/
namespace TorrentAtlas

open Encoding Crypto

namespace TrackerLog

/-- What is written after the time stamp. -/
def info (message : Bytes) : Bytes := message

def error (message : Bytes) : Bytes := lit "ERROR: " ++ message

/-- How many arguments of each command may be shown; the rest are hidden. -/
def shown : List (Bytes × Nat) := [(lit "create_user", 1), (lit "login", 1), (lit "upload_file", 2)]

/-- The loop of `safeCommand` over the words from number `i` on. -/
def showWords (limit : Option Nat) : Nat → List Bytes → Bytes → Bytes
  | _, [], text => text
  | i, word :: rest, text =>
    let hidden := limit.any (· < i)
    -- one mark for all hidden words
    if hidden && limit.any (· + 1 < i) then showWords limit (i + 1) rest text
    else showWords limit (i + 1) rest (text ++ if hidden then lit " ***" else lit " " ++ word)

def safeCommand (commandLine : Bytes) : Bytes :=
  match words commandLine with
  | [] => lit "(empty)"
  | name :: args => showWords (shown.lookup name) 1 args name

def safeResponse (response : Bytes) : Bytes :=
  if (lit "META").isPrefixOf response then lit "META ..."
  else if response.length ≤ 200 then response
  else response.take 200 ++ lit "..."

end TrackerLog

namespace TrackerService

/-- The sender of a request, as the log names it. -/
def who (user client : Bytes) : Bytes :=
  (if user.isEmpty then lit "(not logged in)" else user) ++ lit " @ " ++ client

/-- The message about a request that was run. -/
def logMessage (user client commandLine response : Bytes) : Bytes :=
  who user client ++ lit ": " ++ TrackerLog.safeCommand commandLine ++ lit " -> " ++ TrackerLog.safeResponse response

/-- `handle` together with what it logs. -/
def handleLogged (ssl : OpenSsl) (s : TrackerState) (context : ApplyContext) (request client : Bytes) :
    (TrackerState × Bytes) × Bytes :=
  let malformed := ((s, lit "ERR malformed request\t0"), TrackerLog.error (client ++ lit " sent a malformed request"))
  match split request (chr '\t') with
  | kind :: session :: first :: rest =>
    if kind ≠ lit "C" then malformed
    else
      match parseU64 session with
      | none => malformed
      | some session =>
        let command := join (first :: rest) (chr '\t')
        let result := s.apply ssl session command context
        ((result.1, result.2.response ++ lit "\t" ++ decimal result.2.session.toNat),
          TrackerLog.info (logMessage (s.userOf session) client command result.2.response))
  | _ => malformed

end TrackerService

namespace TrackerLog

variable {limit : Nat}

/-- Nothing is added after the mark. -/
theorem showWords_past {i : Nat} (h : limit + 1 < i) (rest : List Bytes) (text : Bytes) :
    showWords (some limit) i rest text = text := by
  induction rest generalizing i with
  | nil => rfl
  | cons word rest ih =>
    have hpast : limit < i := by omega
    simp only [showWords, Option.any_some, h, hpast, decide_true, Bool.and_self, if_true]
    exact ih (by omega)

/-- The words up to the limit are shown, and the first one after it becomes the mark. -/
theorem showWords_limit {m i : Nat} (hi : i + m = limit + 1) {args : List Bytes} (h : m < args.length) (text : Bytes) :
    showWords (some limit) i args text = text ++ (args.take m).flatMap (lit " " ++ ·) ++ lit " ***" := by
  induction m generalizing i args text with
  | zero =>
    cases args with
    | nil => simp at h
    | cons word rest =>
      have hmark : limit < i ∧ ¬ limit + 1 < i := by omega
      simp only [showWords, Option.any_some, hmark.1, hmark.2, decide_true, decide_false, Bool.and_false,
        Bool.false_eq_true, if_false, if_true]
      rw [showWords_past (by omega)]
      simp
  | succ m ih =>
    cases args with
    | nil => simp at h
    | cons word rest =>
      have hshow : ¬ limit < i := by omega
      simp only [showWords, Option.any_some, hshow, decide_false, Bool.false_and, Bool.false_eq_true, if_false]
      rw [ih (by omega) (by simpa using h)]
      simp

theorem showWords_none (i : Nat) (args : List Bytes) (text : Bytes) :
    showWords none i args text = text ++ args.flatMap (lit " " ++ ·) := by
  induction args generalizing i text with
  | nil => simp [showWords]
  | cons word rest ih =>
    simp only [showWords, Option.any_none, Bool.false_and, Bool.false_eq_true, if_false]
    rw [ih]
    simp

/-- What is shown of a command with hidden arguments does not depend on them. -/
theorem safeCommand_hidden {commandLine name : Bytes} {args : List Bytes} (hname : (name, limit) ∈ shown)
    (hwords : words commandLine = name :: args) (h : limit < args.length) :
    safeCommand commandLine = name ++ (args.take limit).flatMap (lit " " ++ ·) ++ lit " ***" := by
  have hlookup : shown.lookup name = some limit := by
    simp only [shown, List.mem_cons, Prod.mk.injEq, List.not_mem_nil, or_false] at hname
    rcases hname with ⟨rfl, rfl⟩ | ⟨rfl, rfl⟩ | ⟨rfl, rfl⟩ <;> decide +kernel
  simp only [safeCommand, hwords, hlookup]
  exact showWords_limit (by omega) h name

example : safeCommand (lit "login  alice\tsecret more") = lit "login alice ***" := by decide +kernel

/-- A command without secrets is shown word by word. -/
theorem safeCommand_plain {commandLine name : Bytes} {args : List Bytes} (hname : shown.lookup name = none)
    (hwords : words commandLine = name :: args) :
    safeCommand commandLine = name ++ args.flatMap (lit " " ++ ·) := by
  simp only [safeCommand, hwords, hname, showWords_none]

theorem safeResponse_meta {response : Bytes} (h : (lit "META ").isPrefixOf response = true) :
    safeResponse response = lit "META ..." := by
  have hmeta : (lit "META").isPrefixOf response = true := by
    rw [List.isPrefixOf_iff_prefix] at *
    exact List.IsPrefix.trans (by decide) h
  rw [safeResponse, if_pos hmeta]

end TrackerLog

namespace TrackerService

variable {ssl : OpenSsl} {s : TrackerState} {context : ApplyContext} {request client : Bytes}

/-- Logging changes nothing about what is answered. -/
theorem handleLogged_handle (ssl : OpenSsl) (s : TrackerState) (context : ApplyContext) (request client : Bytes) :
    (handleLogged ssl s context request client).1 = handle ssl s context request := by
  unfold handleLogged handle
  generalize split request (chr '\t') = fields
  match fields with
  | [] | [_] | [_, _] => rfl
  | kind :: session :: first :: rest =>
    by_cases hkind : kind = lit "C"
    · cases hparse : parseU64 session <;> simp [hkind, hparse]
    · simp [hkind]

/-- A request of which `apply` looks up the command. -/
structure Dispatched (request : Bytes) (session : UInt64) (commandLine name : Bytes) (args : List Bytes) : Prop where
  isRequest : IsRequest request session commandLine
  words_eq : words commandLine = name :: args

theorem handleLogged_request (ssl : OpenSsl) (s : TrackerState) (context : ApplyContext) {commandLine : Bytes}
    {session : UInt64} (h : IsRequest request session commandLine) (client : Bytes) :
    (handleLogged ssl s context request client).2 =
      logMessage (s.userOf session) client commandLine (s.apply ssl session commandLine context).2.response := by
  obtain ⟨number, first, rest, hsplit, hparse, hjoin⟩ := h.split
  rw [handleLogged, hsplit]
  simp [hparse, hjoin, TrackerLog.info]

/-- Two requests with the same command word and the same arguments up to the limit, and with something after them, from
the same user and address and with the same response are logged alike; a request for a file that is answered with
metadata and tickets is logged without anything of the answer. -/
theorem log_secrecy (ssl : OpenSsl) (client : Bytes) :
    (∀ (s s' : TrackerState) (context context' : ApplyContext) (request request' : Bytes) (session session' : UInt64)
        (line line' name : Bytes) (args args' : List Bytes) (limit : Nat),
      (name, limit) ∈ TrackerLog.shown → Dispatched request session line name args →
      Dispatched request' session' line' name args' → args.take limit = args'.take limit →
      limit < args.length → limit < args'.length → s.userOf session = s'.userOf session' →
      (s.apply ssl session line context).2.response = (s'.apply ssl session' line' context').2.response →
      (handleLogged ssl s context request client).2 = (handleLogged ssl s' context' request' client).2) ∧
    ∀ (s : TrackerState) (context : ApplyContext) (request : Bytes) (session : UInt64) (line : Bytes)
        (args : List Bytes),
      Dispatched request session line (lit "download_file") args →
      (lit "META ").isPrefixOf (s.apply ssl session line context).2.response = true →
      (handleLogged ssl s context request client).2 = who (s.userOf session) client ++ lit ": download_file" ++
        args.flatMap (lit " " ++ ·) ++ lit " -> META ..." := by
  refine ⟨fun s s' context context' request request' session session' line line' name args args' limit hname h h'
    hshown hmore hmore' huser hresponse => ?_, fun s context request session line args h hmeta => ?_⟩
  · rw [handleLogged_request ssl s context h.isRequest, handleLogged_request ssl s' context' h'.isRequest, logMessage,
      logMessage, TrackerLog.safeCommand_hidden hname h.words_eq hmore,
      TrackerLog.safeCommand_hidden hname h'.words_eq hmore', hshown, huser, hresponse]
  · have hplain : TrackerLog.shown.lookup (lit "download_file") = none := by decide +kernel
    have hcolon : lit ": download_file" = lit ": " ++ lit "download_file" := by decide +kernel
    have harrow : lit " -> META ..." = lit " -> " ++ lit "META ..." := by decide +kernel
    rw [handleLogged_request ssl s context h.isRequest, logMessage, TrackerLog.safeCommand_plain hplain h.words_eq,
      TrackerLog.safeResponse_meta hmeta, hcolon, harrow]
    simp only [List.append_assoc]

/-- Two passwords, typed with different blanks, for a user that does not exist. -/
theorem log_secrecy_login :
    (handleLogged (Recording.replay {}) .empty ⟨[], 0, 0⟩ (lit "C\t0\tlogin alice secret") (lit "10.0.0.9:5000")).2 =
      (handleLogged (Recording.replay {}) .empty ⟨[], 0, 0⟩ (lit "C\t0\tlogin\talice  hunter2")
        (lit "10.0.0.9:5000")).2 := by
  refine (log_secrecy (Recording.replay {}) (lit "10.0.0.9:5000")).1 .empty .empty ⟨[], 0, 0⟩ ⟨[], 0, 0⟩ _ _ 0 0
    (lit "login alice secret") (lit "login\talice  hunter2") (lit "login") [lit "alice", lit "secret"]
    [lit "alice", lit "hunter2"] 1 (by decide +kernel) ⟨⟨lit "0", ?_⟩, ?_⟩ ⟨⟨lit "0", ?_⟩, ?_⟩ rfl ?_ ?_ rfl ?_
  all_goals decide +kernel

end TrackerService

end TorrentAtlas
