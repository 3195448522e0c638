import TorrentAtlas.TrackerEffect

/-!
# A client talking to the tracker (`client/tracker_client.cpp`, `tracker/tracker_service.cpp`)

A request is `C`, the session and the command, separated by tabs; a reply ends
with a tab and the new session. The channel in between is a parameter here: the
functions below are what is done with the text before and after it.
-/
namespace TorrentAtlas

open Encoding Crypto

namespace TrackerService

/-- One decrypted request: the state it leaves and the reply text. -/
def handle (ssl : OpenSsl) (s : TrackerState) (context : ApplyContext) (request : Bytes) : TrackerState × Bytes :=
  match split request (chr '\t') with
  | kind :: session :: first :: rest =>
    if kind ≠ lit "C" then (s, lit "ERR malformed request\t0")
    else
      match parseU64 session with
      | none => (s, lit "ERR malformed request\t0")
      | some session =>
        let result := s.apply ssl session (join (first :: rest) (chr '\t')) context
        (result.1, result.2.response ++ lit "\t" ++ decimal result.2.session.toNat)
  | _ => (s, lit "ERR malformed request\t0")

end TrackerService

namespace TrackerClient

/-- `std::string::rfind` of one character. -/
def rfind (text : Bytes) (c : UInt8) : Option Nat :=
  if c ∈ text then some (text.length - 1 - text.reverse.idxOf c) else none

/-- The text handed to `callTracker`. -/
def message (session : UInt64) (command : Bytes) : Bytes :=
  lit "C\t" ++ decimal session.toNat ++ lit "\t" ++ command

/-- What `request` returns, the response it stores and the session it keeps. -/
structure Answer where
  ok : Bool
  response : Bytes
  session : UInt64
  deriving DecidableEq, Repr

/-- `request` after `callTracker`; `none` is a failed call. -/
def request (session : UInt64) (reply : Option Bytes) : Answer :=
  match reply with
  | none => ⟨false, lit "ERR tracker unavailable", session⟩
  | some response =>
    match rfind response (chr '\t') with
    | none => ⟨false, lit "ERR invalid tracker reply", session⟩
    | some tab =>
      match parseU64 (response.drop (tab + 1)) with
      | none => ⟨false, lit "ERR invalid tracker reply", session⟩
      | some session => ⟨true, response.take tab, session⟩

/-- The command line `share` sends. -/
def shareCommand (self : Endpoint) (peerKey group name : Bytes) (metadata : FileMetadata) : Bytes :=
  lit "upload_file " ++ group ++ lit " " ++ toHex name ++ lit " " ++ decimal metadata.size.toNat ++ lit " " ++
    metadata.fullHash ++ lit " " ++ metadata.pieceHashList ++ lit " " ++ self.ip ++ lit " " ++
    decimal self.port ++ lit " " ++ toHex peerKey

/-- The command line `locate` sends. -/
def locateCommand (group name : Bytes) : Bytes := lit "download_file " ++ group ++ lit " " ++ toHex name

/-- `locate` after `callTracker`: metadata and seeders, or the message to show. -/
def locate (session : UInt64) (reply : Option Bytes) : Except Bytes (FileMetadata × List SeederAccess) :=
  let answer := request session reply
  if !answer.ok || !(lit "META ").isPrefixOf answer.response then .error answer.response
  else
    match words answer.response with
    | [_, size, fullHash, hashes, list] =>
      match parseU64 size with
      | none => .error (lit "ERR invalid tracker metadata")
      | some size =>
        let metadata : FileMetadata := ⟨size, fullHash, FileMetadata.parsePieceHashList hashes⟩
        if !metadata.valid then .error (lit "ERR invalid tracker metadata")
        else
          let seeders := (split list (chr ',')).filterMap SeederAccess.decode
          if seeders.isEmpty then .error (lit "ERR no valid peer endpoints") else .ok (metadata, seeders)
    | _ => .error (lit "ERR invalid tracker metadata")

theorem rfind_append {a b : Bytes} {c : UInt8} (h : c ∉ b) : rfind (a ++ c :: b) c = some a.length := by
  have hidx : (b.reverse ++ c :: a.reverse).idxOf c = b.length := by
    rw [List.idxOf_append_of_notMem (by simpa using h)]
    simp
  simp only [rfind, List.mem_append, List.mem_cons, true_or, or_true, if_true, List.reverse_append,
    List.reverse_cons, List.append_assoc, List.singleton_append, hidx, List.length_append, List.length_cons]
  congr 1
  omega

/-- The client reads back the response and the session that the tracker sent. -/
theorem request_reply (session session' : UInt64) (response : Bytes) :
    request session (some (response ++ lit "\t" ++ decimal session'.toNat)) = ⟨true, response, session'⟩ := by
  have htab : response ++ lit "\t" ++ decimal session'.toNat = response ++ chr '\t' :: decimal session'.toNat := by
    simp [lit, chr]
  have hdrop : (response ++ chr '\t' :: decimal session'.toNat).drop (response.length + 1) =
      decimal session'.toNat := by
    rw [List.drop_append, List.drop_eq_nil_of_le (by omega)]
    simp
  rw [htab, request, rfind_append (not_mem_decimal (by decide) _)]
  simp only [hdrop, parseU64_decimal, List.take_left']

theorem encode_ne_nil (a : SeederAccess) : a.encode ≠ [] := by
  simp [SeederAccess.encode, lit]

theorem isSpace_of_isXDigit {b : UInt8} (h : isXDigit b = true) : isSpace b = false := by
  revert h
  revert b
  decide +kernel

theorem isSpace_of_isDigit {b : UInt8} (h : isDigit b = true) : isSpace b = false := by
  revert h
  revert b
  decide +kernel

theorem isSpace_of_pieceHashList {metadata : FileMetadata} (hvalid : metadata.valid = true) {b : UInt8}
    (hb : b ∈ metadata.pieceHashList) : isSpace b = false := by
  rcases FileMetadata.mem_pieceHashList hvalid hb with hx | rfl | rfl
  · exact isSpace_of_isXDigit hx
  · decide
  · decide

theorem insertionSort_ne_nil {texts : List Bytes} (h : texts ≠ []) : texts.insertionSort (· ≤ ·) ≠ [] := by
  rw [ne_eq, ← List.length_eq_zero_iff, (List.perm_insertionSort _ _).length_eq]
  simpa using h

/-- The five words of a reply to `download_file`. -/
theorem words_metaReply {metadata : FileMetadata} (hvalid : metadata.valid = true)
    {accesses : List SeederAccess} (hblank : ∀ a ∈ accesses, ∀ b ∈ a.encode, isSpace b = false)
    (hne : accesses ≠ []) :
    words (TrackerState.metaReply metadata accesses) = [lit "META", decimal metadata.size.toNat, metadata.fullHash,
      metadata.pieceHashList, join ((accesses.map SeederAccess.encode).insertionSort (· ≤ ·)) (chr ',')] := by
  generalize hlist : (accesses.map SeederAccess.encode).insertionSort (· ≤ ·) = list
  have hmem : ∀ text, text ∈ list → ∃ a ∈ accesses, a.encode = text := by
    intro text ht
    rw [← hlist, (List.perm_insertionSort _ _).mem_iff] at ht
    exact List.mem_map.mp ht
  have hlist_ne : list ≠ [] := hlist ▸ insertionSort_ne_nil (by simpa using hne)
  have hreply : TrackerState.metaReply metadata accesses = [chr ' '].intercalate [lit "META",
      decimal metadata.size.toNat, metadata.fullHash, metadata.pieceHashList, join list (chr ',')] := by
    simp [TrackerState.metaReply, hlist, List.intercalate_cons_cons, lit, chr]
  rw [hreply]
  refine Delimited.words_intercalate (by decide) ?_
  simp only [List.mem_cons, List.not_mem_nil, or_false, forall_eq_or_imp, forall_eq]
  refine ⟨by decide +kernel, ⟨decimal_ne_nil _, fun b hb => isSpace_of_isDigit (isDigit_of_mem_decimal hb)⟩,
    ⟨FileMetadata.valid_fullHash_ne_nil hvalid,
      fun b hb => isSpace_of_isXDigit (isXDigit_of_isHex (FileMetadata.valid_fullHash hvalid) hb)⟩,
    ⟨FileMetadata.pieceHashList_ne_nil hvalid, fun b hb => isSpace_of_pieceHashList hvalid hb⟩, ?_, fun b hb => ?_⟩
  · rw [join_eq]
    refine Delimited.intercalate_ne_nil _ hlist_ne (fun text ht => ?_)
    obtain ⟨a, -, rfl⟩ := hmem text ht
    exact encode_ne_nil a
  · rw [join_eq] at hb
    rcases Delimited.mem_intercalate hb with rfl | ⟨text, ht, hbt⟩
    · decide
    · obtain ⟨a, ha, rfl⟩ := hmem text ht
      exact hblank a ha b hbt

/-- What `locate` returns has been checked and read from a list. -/
theorem locate_eq_ok {session : UInt64} {reply : Option Bytes} {found : FileMetadata × List SeederAccess}
    (h : locate session reply = .ok found) :
    found.1.valid = true ∧ found.2 ≠ [] ∧ ∃ list, found.2 = (split list (chr ',')).filterMap SeederAccess.decode := by
  simp only [locate] at h
  split at h
  · simp at h
  · split at h
    · next list _ =>
      split at h
      · simp at h
      · split at h
        · simp at h
        · next hvalid =>
          split at h
          · simp at h
          · next hne =>
            obtain rfl := Except.ok.inj h
            exact ⟨by simpa using hvalid, by simpa using hne, list, rfl⟩
    · simp at h

/-- What `locate` makes of a well-formed reply: each entry of the list comes apart at its own commas. -/
theorem locate_metaReply (session session' : UInt64) {metadata : FileMetadata} (hvalid : metadata.valid = true)
    {accesses : List SeederAccess} (hblank : ∀ a ∈ accesses, ∀ b ∈ a.encode, isSpace b = false)
    (hne : accesses ≠ []) :
    locate session (some (TrackerState.metaReply metadata accesses ++ lit "\t" ++ decimal session'.toNat)) =
      let seeders := ((accesses.map SeederAccess.encode).insertionSort (· ≤ ·)).flatMap
        (fun text => (text.splitOn (chr ',')).filterMap SeederAccess.decode)
      if seeders.isEmpty then .error (lit "ERR no valid peer endpoints") else .ok (metadata, seeders) := by
  have hsort_ne : (accesses.map SeederAccess.encode).insertionSort (· ≤ ·) ≠ [] :=
    insertionSort_ne_nil (by simpa using hne)
  have hmetadata : (⟨metadata.size, metadata.fullHash, FileMetadata.parsePieceHashList metadata.pieceHashList⟩ :
      FileMetadata) = metadata := by rw [FileMetadata.parsePieceHashList_pieceHashList hvalid]
  have hsplit : (split (join ((accesses.map SeederAccess.encode).insertionSort (· ≤ ·)) (chr ',')) (chr ',')).filterMap
      SeederAccess.decode = ((accesses.map SeederAccess.encode).insertionSort (· ≤ ·)).flatMap
        (fun text => (text.splitOn (chr ',')).filterMap SeederAccess.decode) := by
    rw [split_eq, join_eq, Delimited.splitOn_intercalate_flatMap _ hsort_ne, List.filterMap_flatMap]
  simp only [locate, request_reply, TrackerState.metaReply_isPrefixOf, words_metaReply hvalid hblank hne,
    parseU64_decimal, hmetadata, hvalid, hsplit, Bool.not_true, Bool.or_self, Bool.false_eq_true, if_false]

end TrackerClient

namespace TrackerService

/-- A request of the form `C`, tab, decimal `u64`, tab, command. -/
def IsRequest (request : Bytes) (session : UInt64) (command : Bytes) : Prop :=
  ∃ number, number ≠ [] ∧ (∀ b ∈ number, isDigit b = true) ∧ decimalValue number = session.toNat ∧
    request = lit "C\t" ++ number ++ lit "\t" ++ command

/-- The first two tabs are the ones that count; those in the command are put back. -/
theorem IsRequest.split {request command : Bytes} {session : UInt64} (h : IsRequest request session command) :
    ∃ number first rest, Encoding.split request (chr '\t') = lit "C" :: number :: first :: rest ∧
      parseU64 number = some session ∧ join (first :: rest) (chr '\t') = command := by
  obtain ⟨number, hne, hdigits, hvalue, rfl⟩ := h
  have hnumber : chr '\t' ∉ number := fun hm => absurd (hdigits _ hm) (by decide)
  have hcut : lit "C\t" ++ number ++ lit "\t" ++ command =
      lit "C" ++ chr '\t' :: (number ++ chr '\t' :: command) := by simp [lit, chr]
  obtain ⟨first, rest, hcommand⟩ := List.exists_cons_of_ne_nil (List.splitOn_ne_nil (chr '\t') command)
  refine ⟨number, first, rest, ?_, parseU64_eq_some.mpr ⟨hne, hdigits, hvalue⟩, ?_⟩
  · rw [split_eq, hcut, Delimited.splitOn_cons_field _ (by decide), Delimited.splitOn_cons_field _ hnumber, hcommand]
  · rw [join_eq, ← hcommand, List.intercalate_splitOn]

theorem handle_request (ssl : OpenSsl) (s : TrackerState) (context : ApplyContext) {request command : Bytes}
    {session : UInt64} (h : IsRequest request session command) : handle ssl s context request =
      ((s.apply ssl session command context).1, (s.apply ssl session command context).2.response ++ lit "\t" ++
        decimal (s.apply ssl session command context).2.session.toNat) := by
  obtain ⟨number, first, rest, hsplit, hparse, hjoin⟩ := h.split
  rw [handle, hsplit]
  simp [hparse, hjoin]

theorem isRequest_message (session : UInt64) (command : Bytes) :
    IsRequest (TrackerClient.message session command) session command :=
  ⟨decimal session.toNat, decimal_ne_nil _, fun _ hb => isDigit_of_mem_decimal hb, decimalValue_decimal _, rfl⟩

/-- The tracker runs exactly the session and command line that the client put into the message. -/
theorem handle_message (ssl : OpenSsl) (s : TrackerState) (context : ApplyContext) (session : UInt64)
    (command : Bytes) : handle ssl s context (TrackerClient.message session command) =
      ((s.apply ssl session command context).1, (s.apply ssl session command context).2.response ++ lit "\t" ++
        decimal (s.apply ssl session command context).2.session.toNat) :=
  handle_request ssl s context (isRequest_message session command)

end TrackerService

end TorrentAtlas
