import TorrentAtlas.TrackerClient

/-!
# Requests and replies on the wire (`client/tracker_client.cpp`, `tracker/tracker_service.cpp`)

Commands and replies may contain tabs. A request is read from its front, where the
session has none, and a reply from its end, where the session has none either.
-/
namespace TorrentAtlas.TrackerService

open Encoding Crypto

variable {ssl : OpenSsl} {s : TrackerState} {context : ApplyContext} {request : Bytes}

/-- The fields that `handle` accepts spell a request. -/
theorem isRequest_of_split {number first : Bytes} {rest : List Bytes} {session : UInt64}
    (hsplit : split request (chr '\t') = lit "C" :: number :: first :: rest) (hparse : parseU64 number = some session) :
    IsRequest request session (join (first :: rest) (chr '\t')) := by
  obtain ⟨hne, hdigits, hvalue⟩ := parseU64_eq_some.mp hparse
  rw [split_eq, Delimited.splitOn_eq_iff] at hsplit
  refine ⟨number, hne, hdigits, hvalue, ?_⟩
  rw [hsplit.2.2, join_eq]
  simp [List.intercalate_cons_cons, lit, chr]

/-- A request is run, or it is malformed and nothing happens. -/
theorem handle_cases (ssl : OpenSsl) (s : TrackerState) (context : ApplyContext) (request : Bytes) :
    (∃ session command, IsRequest request session command) ∨
      handle ssl s context request = (s, lit "ERR malformed request\t0") := by
  unfold handle
  split
  · next kind number first rest hsplit =>
    split
    · exact Or.inr rfl
    · next hkind =>
      split
      · exact Or.inr rfl
      · next session hparse =>
        rw [not_not.mp hkind] at hsplit
        exact Or.inl ⟨session, _, isRequest_of_split hsplit hparse⟩
  · exact Or.inr rfl

/-- A request spells one session and one command. -/
theorem IsRequest.unique {session session' : UInt64} {command command' : Bytes} (h : IsRequest request session command)
    (h' : IsRequest request session' command') : session = session' ∧ command = command' := by
  obtain ⟨number, first, rest, hsplit, hparse, hjoin⟩ := h.split
  obtain ⟨number', first', rest', hsplit', hparse', hjoin'⟩ := h'.split
  rw [hsplit] at hsplit'
  simp only [List.cons.injEq, true_and] at hsplit'
  obtain ⟨rfl, rfl, rfl⟩ := hsplit'
  exact ⟨Option.some.inj (hparse.symm.trans hparse'), hjoin.symm.trans hjoin'⟩

/-- The tracker runs `apply` with exactly the session and the command of the client's request, the client reads from the
tracker's text exactly the reply and the session that `apply` returned, and a text that is no request changes nothing. -/
theorem request_reply_wire (ssl : OpenSsl) (s : TrackerState) (context : ApplyContext) :
    (∀ (session : UInt64) (command : Bytes),
      IsRequest (TrackerClient.message session command) session command ∧
      (handle ssl s context (TrackerClient.message session command)).1 = (s.apply ssl session command context).1 ∧
      TrackerClient.request session (some (handle ssl s context (TrackerClient.message session command)).2) =
        ⟨true, (s.apply ssl session command context).2.response, (s.apply ssl session command context).2.session⟩) ∧
    (∀ request session command, IsRequest request session command →
      (∀ session' command', IsRequest request session' command' → session' = session ∧ command' = command) ∧
      (handle ssl s context request).1 = (s.apply ssl session command context).1) ∧
    ∀ request, (∀ session command, ¬ IsRequest request session command) →
      handle ssl s context request = (s, lit "ERR malformed request\t0") := by
  refine ⟨fun session command => ⟨isRequest_message session command, ?_, ?_⟩,
    fun request session command h => ⟨fun session' command' h' => h'.unique h, ?_⟩, fun request hno => ?_⟩
  · rw [handle_message]
  · rw [handle_message, TrackerClient.request_reply]
  · rw [handle_request ssl s context h]
  · rcases handle_cases ssl s context request with ⟨session, command, h⟩ | h
    · exact absurd h (hno session command)
    · exact h

/-- A session with leading zeros is run as its value, and two fields are no request. -/
theorem request_reply_wire_logout :
    (handle (Recording.replay {}) .empty ⟨[], 0, 0⟩ (lit "C\t007\tlogout")).1 =
      (TrackerState.empty.apply (Recording.replay {}) 7 (lit "logout") ⟨[], 0, 0⟩).1 ∧
    handle (Recording.replay {}) .empty ⟨[], 0, 0⟩ (lit "C\t7") =
      (.empty, lit "ERR malformed request\t0") := by
  have hwire := request_reply_wire (Recording.replay {}) .empty ⟨[], 0, 0⟩
  refine ⟨(hwire.2.1 _ 7 (lit "logout") ⟨lit "007", by decide, by decide +kernel, by decide, by decide +kernel⟩).2,
    hwire.2.2 _ ?_⟩
  rintro session command ⟨number, hne, -, -, heq⟩
  have hlength := congrArg List.length heq
  have hpos := List.length_pos_iff.mpr hne
  simp [lit] at hlength
  omega

end TorrentAtlas.TrackerService
