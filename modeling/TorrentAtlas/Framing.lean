import TorrentAtlas.PieceFile
import TorrentAtlas.Library.FrontCodec

/-!
# Frames on a socket (`common/net/net.cpp`)

A byte stream is what the other end has sent and will send before it closes; `recv`
returns 0 where it ends. `send` and `recv` may move fewer bytes than asked for, be
interrupted or fail, so both loops take the outcomes of their calls and return those
they have not used.
-/
namespace TorrentAtlas

/-- The largest frame payload (`common/net/net.hpp`). -/
def MAX_FRAME : Nat := 16 * 1024 * 1024

/-- The bytes of a 32-bit number in network order. -/
def htonl (n : UInt32) : Bytes :=
  [UInt8.ofNat (n.toNat / 16777216), UInt8.ofNat (n.toNat / 65536), UInt8.ofNat (n.toNat / 256), UInt8.ofNat n.toNat]

def ntohl (bytes : Bytes) : UInt32 := UInt32.ofNat (bytes.foldl (fun n (b : UInt8) => 256 * n + b.toNat) 0)

namespace Socket

/-- What a send has put on the stream when it returns. -/
structure Sent where
  ok : Bool
  written : Bytes
  io : List Transfer
  deriving DecidableEq, Repr

/-- What a receive has read when it returns, and what it leaves on the stream. -/
structure Received where
  ok : Bool
  data : Bytes
  rest : Bytes
  io : List Transfer
  deriving DecidableEq, Repr

/-- `sendAll`; calls after those given move all that is left. -/
def sendAll : List Transfer → Bytes → Sent
  | [], data => ⟨true, data, []⟩
  | io :: more, data =>
    if data.isEmpty then ⟨true, [], io :: more⟩
    else
      match io with
      | .interrupted => sendAll more data
      | .failed => ⟨false, [], more⟩
      | .upTo n =>
        let sent := sendAll more (data.drop (n + 1))
        { sent with written := data.take (n + 1) ++ sent.written }

/-- `receiveAll`; calls after those given move all that is left. -/
def receiveAll : List Transfer → Bytes → Nat → Received
  | [], stream, length => ⟨decide (length ≤ stream.length), stream.take length, stream.drop length, []⟩
  | io :: more, stream, length =>
    if length = 0 then ⟨true, [], stream, io :: more⟩
    else
      match io with
      | .interrupted => receiveAll more stream length
      | .failed => ⟨false, [], stream, more⟩
      | .upTo n =>
        let count := stream.take (min (n + 1) length)
        if count.isEmpty then ⟨false, [], stream, more⟩
        else
          let received := receiveAll more (stream.drop count.length) (length - count.length)
          { received with data := count ++ received.data }

def sendFrame (io : List Transfer) (payload : Bytes) : Sent :=
  if payload.length > MAX_FRAME then ⟨false, [], io⟩
  else
    let head := sendAll io (htonl (UInt32.ofNat payload.length))
    if !head.ok then head
    else
      let body := sendAll head.io payload
      { body with written := head.written ++ body.written }

/-- `payload.resize(length)`, then its first bytes overwritten with `data`. -/
def fill (payload : Bytes) (length : Nat) (data : Bytes) : Bytes :=
  data ++ (payload.take length ++ List.replicate (length - payload.length) 0).drop data.length

/-- `receiveFrame`, with what `payload` held before; `data` is what it holds after. -/
def receiveFrame (io : List Transfer) (stream payload : Bytes) : Received :=
  let head := receiveAll io stream 4
  if !head.ok then { head with data := payload }
  else
    let length := (ntohl head.data).toNat
    if length > MAX_FRAME then { head with ok := false, data := payload }
    else
      let body := receiveAll head.io head.rest length
      { body with data := fill payload length body.data }

/-- `sendFrame` of one payload after another, up to the first that fails. -/
def sendFrames : List Transfer → List Bytes → Sent
  | io, [] => ⟨true, [], io⟩
  | io, payload :: rest =>
    let first := sendFrame io payload
    if !first.ok then first
    else
      let others := sendFrames first.io rest
      { others with written := first.written ++ others.written }

/-- `receiveFrame` into one variable `count` times, up to the first that fails: the payloads, and the last call. -/
def receiveFrames : Nat → List Transfer → Bytes → Bytes → List Bytes × Received
  | 0, io, stream, payload => ([], ⟨true, payload, stream, io⟩)
  | count + 1, io, stream, payload =>
    let first := receiveFrame io stream payload
    if !first.ok then ([], first)
    else
      let others := receiveFrames count first.io first.rest first.data
      (first.data :: others.1, others.2)

end Socket

section NetworkOrder

@[simp] theorem length_htonl (n : UInt32) : (htonl n).length = 4 := rfl

@[simp] theorem ntohl_htonl (n : UInt32) : ntohl (htonl n) = n := by
  have hlt := n.toNat_lt
  rw [← UInt32.toNat_inj]
  simp only [ntohl, htonl, List.foldl_cons, List.foldl_nil, UInt32.toNat_ofNat', UInt8.toNat_ofNat']
  omega

theorem htonl_ntohl {bytes : Bytes} (h : bytes.length = 4) : htonl (ntohl bytes) = bytes := by
  match bytes, h with
  | [a, b, c, d], _ =>
    have ha := a.toNat_lt
    have hb := b.toNat_lt
    have hc := c.toNat_lt
    have hd := d.toNat_lt
    simp only [ntohl, htonl, List.foldl_cons, List.foldl_nil, UInt32.toNat_ofNat', List.cons.injEq, and_true,
      ← UInt8.toNat_inj, UInt8.toNat_ofNat']
    omega

end NetworkOrder

namespace Socket

/-- A payload that fits a frame. -/
abbrev Payload := { payload : Bytes // payload.length ≤ MAX_FRAME }

/-- A payload as it travels. -/
def frame (payload : Bytes) : Bytes := htonl (UInt32.ofNat payload.length) ++ payload

/-- The frame a stream starts with. -/
def unframe (stream : Bytes) : Option (Payload × Bytes) :=
  if stream.length < 4 then none
  else
    let length := (ntohl (stream.take 4)).toNat
    if h : length ≤ MAX_FRAME ∧ length ≤ (stream.drop 4).length then
      some (⟨(stream.drop 4).take length, by rw [List.length_take]; omega⟩, (stream.drop 4).drop length)
    else none

theorem toNat_length {payload : Bytes} (h : payload.length ≤ MAX_FRAME) :
    (UInt32.ofNat payload.length).toNat = payload.length := by
  simp only [MAX_FRAME] at h
  simp only [UInt32.toNat_ofNat']
  omega

theorem unframe_frame (payload : Payload) (rest : Bytes) : unframe (frame payload ++ rest) = some (payload, rest) := by
  obtain ⟨payload, hsize⟩ := payload
  have htake : (frame payload ++ rest).take 4 = htonl (UInt32.ofNat payload.length) := by
    rw [frame, List.append_assoc, List.take_left' (length_htonl _)]
  have hdrop : (frame payload ++ rest).drop 4 = payload ++ rest := by
    rw [frame, List.append_assoc, List.drop_left' (length_htonl _)]
  have hlen : ¬ (frame payload ++ rest).length < 4 := by simp [frame]
  simp only [unframe, if_neg hlen, htake, hdrop, ntohl_htonl, toNat_length hsize]
  simp [hsize]

theorem of_unframe {stream : Bytes} {payload : Payload} {rest : Bytes} (h : unframe stream = some (payload, rest)) :
    stream = frame payload ++ rest := by
  unfold unframe at h
  split at h
  · simp at h
  · next hfour =>
    dsimp only at h
    split at h
    · next hbody =>
      simp only [Option.some.injEq, Prod.mk.injEq] at h
      obtain ⟨rfl, rfl⟩ := h
      have hhead : (stream.take 4).length = 4 := by rw [List.length_take]; omega
      have hlen : ((stream.drop 4).take (ntohl (stream.take 4)).toNat).length = (ntohl (stream.take 4)).toNat := by
        rw [List.length_take]
        omega
      rw [frame, hlen, UInt32.ofNat_toNat, htonl_ntohl hhead, List.append_assoc, List.take_append_drop,
        List.take_append_drop]
    · simp at h

/-- Frames as values on a byte stream. -/
def frames : FrontCodec Payload UInt8 where
  write payload := frame payload
  read := unframe
  read_write := unframe_frame
  of_read := of_unframe

/-- What `sendAll` guarantees of its data, whatever the outcomes of its calls. -/
structure Sent.Of (data : Bytes) (io : List Transfer) (s : Sent) : Prop where
  written : s.written <+: data
  whole : s.ok = true → s.written = data
  complete : .failed ∉ io → s.ok = true
  io : s.io <:+ io

/-- What `receiveAll` guarantees of `length` bytes of a stream, whatever the outcomes of its calls. -/
structure Received.Of (stream : Bytes) (length : Nat) (io : List Transfer) (r : Received) : Prop where
  cut : r.data ++ r.rest = stream
  whole : r.ok = true → r.data.length = length
  complete : .failed ∉ io → length ≤ stream.length → r.ok = true
  io : r.io <:+ io

theorem not_failed_of_suffix {io more : List Transfer} (h : .failed ∉ io) (hmore : more <:+ io) : .failed ∉ more :=
  fun hm => h (hmore.subset hm)

theorem sendAll_of (io : List Transfer) (data : Bytes) : (sendAll io data).Of data io := by
  induction io generalizing data with
  | nil => exact ⟨List.prefix_rfl, fun _ => rfl, fun _ => rfl, List.suffix_rfl⟩
  | cons t more ih =>
    unfold sendAll
    split
    · next hempty =>
      rw [List.isEmpty_iff.mp hempty]
      exact ⟨List.prefix_rfl, fun _ => rfl, fun _ => rfl, List.suffix_rfl⟩
    · cases t with
      | interrupted =>
        have hrest := ih data
        refine ⟨hrest.written, hrest.whole, fun hio => hrest.complete ?_, hrest.io.trans (List.suffix_cons _ _)⟩
        exact not_failed_of_suffix hio (List.suffix_cons _ _)
      | failed => exact ⟨List.nil_prefix, by simp, by simp, List.suffix_cons _ _⟩
      | upTo n =>
        have hrest := ih (data.drop (n + 1))
        have hcut := List.take_append_drop (n + 1) data
        refine ⟨?_, fun hok => ?_, fun hio => hrest.complete ?_, hrest.io.trans (List.suffix_cons _ _)⟩
        · conv_rhs => rw [← hcut]
          exact (List.prefix_append_right_inj _).mpr hrest.written
        · simp only [hrest.whole hok, hcut]
        · exact not_failed_of_suffix hio (List.suffix_cons _ _)

theorem receiveAll_of (io : List Transfer) (stream : Bytes) (length : Nat) :
    (receiveAll io stream length).Of stream length io := by
  induction io generalizing stream length with
  | nil =>
    refine ⟨List.take_append_drop _ _, fun hok => ?_, fun _ hlen => by simpa [receiveAll] using hlen, List.suffix_rfl⟩
    simp only [receiveAll, decide_eq_true_eq] at hok ⊢
    rw [List.length_take]
    omega
  | cons t more ih =>
    unfold receiveAll
    split
    · next hzero => exact ⟨rfl, fun _ => hzero.symm, fun _ _ => rfl, List.suffix_rfl⟩
    · next hmore =>
      cases t with
      | interrupted =>
        have hrest := ih stream length
        refine ⟨hrest.cut, hrest.whole, fun hio => hrest.complete ?_, hrest.io.trans (List.suffix_cons _ _)⟩
        exact not_failed_of_suffix hio (List.suffix_cons _ _)
      | failed => exact ⟨rfl, by simp, by simp, List.suffix_cons _ _⟩
      | upTo n =>
        dsimp only
        have hcount := List.length_take (i := min (n + 1) length) (l := stream)
        split
        · next hempty =>
          refine ⟨rfl, by simp, fun _ hlen => ?_, List.suffix_cons _ _⟩
          have hnone : (stream.take (min (n + 1) length)).length = 0 := by rw [List.isEmpty_iff.mp hempty]; rfl
          omega
        · have hrest := ih (stream.drop (stream.take (min (n + 1) length)).length)
            (length - (stream.take (min (n + 1) length)).length)
          have hdrop : stream.drop (stream.take (min (n + 1) length)).length = stream.drop (min (n + 1) length) := by
            rw [hcount]
            by_cases hle : min (n + 1) length ≤ stream.length
            · rw [Nat.min_eq_left hle]
            · rw [Nat.min_eq_right (by omega), List.drop_length, List.drop_of_length_le (by omega)]
          refine ⟨?_, fun hok => ?_, fun hio hlen => hrest.complete ?_ ?_, hrest.io.trans (List.suffix_cons _ _)⟩
          · rw [List.append_assoc, hrest.cut, hdrop, List.take_append_drop]
          · have := hrest.whole hok
            rw [List.length_append]
            omega
          · exact not_failed_of_suffix hio (List.suffix_cons _ _)
          · rw [List.length_drop]
            omega

theorem sendFrame_of (io : List Transfer) {payload : Bytes} (h : payload.length ≤ MAX_FRAME) :
    (sendFrame io payload).Of (frame payload) io := by
  have hhead := sendAll_of io (htonl (UInt32.ofNat payload.length))
  unfold sendFrame
  rw [if_neg (by omega)]
  dsimp only
  split
  · next hfailed =>
    simp only [Bool.not_eq_true'] at hfailed
    refine ⟨hhead.written.trans (List.prefix_append _ _), fun hok => ?_, hhead.complete, hhead.io⟩
    rw [hfailed] at hok
    exact absurd hok (by simp)
  · next hsent =>
    have hwritten := hhead.whole (by simpa using hsent)
    have hbody := sendAll_of (sendAll io (htonl (UInt32.ofNat payload.length))).io payload
    refine ⟨?_, fun hok => ?_, fun hio => ?_, hbody.io.trans hhead.io⟩
    · rw [hwritten]
      exact (List.prefix_append_right_inj _).mpr hbody.written
    · simp only [hwritten, hbody.whole hok, frame]
    · exact hbody.complete (not_failed_of_suffix hio hhead.io)

theorem receiveFrame_io (io : List Transfer) (stream payload : Bytes) : (receiveFrame io stream payload).io <:+ io := by
  have hhead := receiveAll_of io stream 4
  unfold receiveFrame
  dsimp only
  split
  · exact hhead.io
  · split
    · exact hhead.io
    · exact (receiveAll_of _ _ _).io.trans hhead.io

/-- Whatever its calls do, a receive that succeeds returns the frame the stream starts with. -/
theorem receiveFrame_sound {io : List Transfer} {stream payload : Bytes}
    (h : (receiveFrame io stream payload).ok = true) : ∃ p : Payload,
      unframe stream = some (p, (receiveFrame io stream payload).rest) ∧ (receiveFrame io stream payload).data = p := by
  have hhead := receiveAll_of io stream 4
  unfold receiveFrame at *
  dsimp only at *
  split at h
  · next hfailed => exact absurd (show _ = true from h) (by simpa using hfailed)
  · next hok =>
    rw [if_neg hok]
    split at h
    · simp at h
    · next hsize =>
      rw [if_neg hsize]
      have hbody := receiveAll_of (receiveAll io stream 4).io (receiveAll io stream 4).rest
        (ntohl (receiveAll io stream 4).data).toNat
      have hfour := hhead.whole (by simpa using hok)
      have hlen := hbody.whole h
      have hcut := hhead.cut
      generalize receiveAll io stream 4 = head at *
      generalize receiveAll head.io head.rest (ntohl head.data).toNat = body at *
      have hsmall : body.data.length ≤ MAX_FRAME := by omega
      have hstream : stream = frame body.data ++ body.rest := by
        rw [frame, hlen, UInt32.ofNat_toNat, htonl_ntohl hfour, List.append_assoc, hbody.cut, hcut]
      refine ⟨⟨body.data, hsmall⟩, ?_, ?_⟩
      · conv_lhs => rw [hstream]
        exact unframe_frame ⟨body.data, hsmall⟩ body.rest
      · have hdrop : (payload.take (ntohl head.data).toNat ++
            List.replicate ((ntohl head.data).toNat - payload.length) 0).drop body.data.length = [] := by
          rw [List.drop_eq_nil_iff, List.length_append, List.length_take, List.length_replicate]
          omega
        rw [fill, hdrop, List.append_nil]

/-- A frame that is there is received, however its bytes arrive. -/
theorem receiveFrame_complete {io : List Transfer} {stream : Bytes} (payload : Bytes) {p : Payload} {rest : Bytes}
    (hio : .failed ∉ io) (h : unframe stream = some (p, rest)) : (receiveFrame io stream payload).ok = true := by
  have hstream := of_unframe h
  have hlen := congrArg List.length hstream
  have hsize := p.property
  simp only [frame, List.length_append, length_htonl] at hlen
  have hhead := receiveAll_of io stream 4
  have hok := hhead.complete hio (by omega)
  have hcut : (receiveAll io stream 4).data ++ (receiveAll io stream 4).rest =
      htonl (UInt32.ofNat p.val.length) ++ (p.val ++ rest) := by
    rw [hhead.cut, hstream, frame, List.append_assoc]
  have hdata := List.append_inj hcut ((hhead.whole hok).trans (length_htonl _).symm)
  unfold receiveFrame
  dsimp only
  rw [if_neg (by simp [hok]), hdata.1, ntohl_htonl, toNat_length hsize, if_neg (by omega)]
  refine (receiveAll_of _ _ _).complete (not_failed_of_suffix hio hhead.io) ?_
  rw [hdata.2, List.length_append]
  omega

/-- The payloads sent are on the stream, whole and in order, unless a call failed. -/
theorem sendFrames_of (io : List Transfer) (payloads : List Payload) :
    (sendFrames io (payloads.map Subtype.val)).Of (frames.writeAll payloads) io := by
  induction payloads generalizing io with
  | nil => exact ⟨List.prefix_rfl, fun _ => rfl, fun _ => rfl, List.suffix_rfl⟩
  | cons p payloads ih =>
    have hfirst := sendFrame_of io p.property
    have hothers := ih (sendFrame io p.val).io
    have hall : frames.writeAll (p :: payloads) = frame p.val ++ frames.writeAll payloads := rfl
    rw [hall, List.map_cons, sendFrames]
    dsimp only
    split
    · next hfailed =>
      simp only [Bool.not_eq_true'] at hfailed
      refine ⟨hfirst.written.trans (List.prefix_append _ _), fun hok => ?_, hfirst.complete, hfirst.io⟩
      rw [hfailed] at hok
      exact absurd hok (by simp)
    · next hsent =>
      have hwritten := hfirst.whole (by simpa using hsent)
      refine ⟨?_, fun hok => ?_, fun hio => ?_, hothers.io.trans hfirst.io⟩
      · rw [hwritten]
        exact (List.prefix_append_right_inj _).mpr hothers.written
      · simp only [hwritten, hothers.whole hok]
      · exact hothers.complete (not_failed_of_suffix hio hfirst.io)

/-- One frame off a stream, whatever the receiver's variable held. -/
theorem receiveFrame_frame {io : List Transfer} (p : Payload) (rest payload : Bytes)
    (h : (receiveFrame io (frame p.val ++ rest) payload).ok = true) :
    (receiveFrame io (frame p.val ++ rest) payload).data = p.val ∧
      (receiveFrame io (frame p.val ++ rest) payload).rest = rest := by
  obtain ⟨q, hread, hdata⟩ := receiveFrame_sound h
  rw [unframe_frame, Option.some.injEq, Prod.mk.injEq] at hread
  exact ⟨hread.1 ▸ hdata, hread.2.symm⟩

/-- The payloads of a stream are received in order, and reception goes on behind them. -/
theorem receiveFrames_writeAll {io : List Transfer} (hio : .failed ∉ io) (payloads : List Payload)
    (rest payload : Bytes) (more : Nat) : ∃ io' payload', io' <:+ io ∧
      receiveFrames (payloads.length + more) io (frames.writeAll payloads ++ rest) payload =
        (payloads.map Subtype.val ++ (receiveFrames more io' rest payload').1,
          (receiveFrames more io' rest payload').2) := by
  induction payloads generalizing io payload with
  | nil => exact ⟨io, payload, List.suffix_rfl, by simp⟩
  | cons p payloads ih =>
    have hstream : frames.writeAll (p :: payloads) ++ rest = frame p.val ++ (frames.writeAll payloads ++ rest) := by
      rw [FrontCodec.writeAll_cons, List.append_assoc]
      rfl
    have hok := receiveFrame_complete payload hio (unframe_frame p (frames.writeAll payloads ++ rest))
    obtain ⟨hdata, hrest⟩ := receiveFrame_frame p _ payload hok
    have hmore := receiveFrame_io io (frame p.val ++ (frames.writeAll payloads ++ rest)) payload
    obtain ⟨io', payload', hio', hothers⟩ := ih (not_failed_of_suffix hio hmore)
      (receiveFrame io (frame p.val ++ (frames.writeAll payloads ++ rest)) payload).data
    refine ⟨io', payload', hio'.trans hmore, ?_⟩
    rw [hstream, List.length_cons, Nat.add_right_comm, receiveFrames]
    dsimp only
    rw [if_neg (by simp [hok]), hrest, hothers, hdata]
    rfl

/-- Where no whole frame follows, the last receive fails, and what came before is what was sent. -/
theorem receiveFrames_cut (io : List Transfer) (payloads : List Payload) {tail : Bytes} (payload : Bytes)
    (htail : unframe tail = none) :
    (receiveFrames (payloads.length + 1) io (frames.writeAll payloads ++ tail) payload).1 <+:
        payloads.map Subtype.val ∧
      (receiveFrames (payloads.length + 1) io (frames.writeAll payloads ++ tail) payload).2.ok = false := by
  induction payloads generalizing io payload with
  | nil =>
    have hfail : (receiveFrame io tail payload).ok = false := by
      rw [Bool.eq_false_iff]
      intro hok
      obtain ⟨p, hread, -⟩ := receiveFrame_sound hok
      rw [htail] at hread
      simp at hread
    have hone : receiveFrames 1 io tail payload = ([], receiveFrame io tail payload) := by
      simp [receiveFrames, hfail]
    simpa [hone] using hfail
  | cons p payloads ih =>
    have hstream : frames.writeAll (p :: payloads) ++ tail = frame p.val ++ (frames.writeAll payloads ++ tail) := by
      rw [FrontCodec.writeAll_cons, List.append_assoc]
      rfl
    rw [hstream, List.length_cons, receiveFrames]
    dsimp only
    split
    · next hfailed => exact ⟨List.nil_prefix, by simpa using hfailed⟩
    · next hok =>
      obtain ⟨hdata, hrest⟩ := receiveFrame_frame p _ payload (by simpa using hok)
      obtain ⟨hstarts, hfail⟩ :=
        ih (receiveFrame io (frame p.val ++ (frames.writeAll payloads ++ tail)) payload).io p.val
      rw [hrest, hdata]
      exact ⟨List.cons_prefix_cons.mpr ⟨rfl, hstarts⟩, hfail⟩

/-- A header over the limit is no frame. -/
theorem unframe_oversized {head : Bytes} (rest : Bytes) (hfour : head.length = 4)
    (hsize : MAX_FRAME < (ntohl head).toNat) : unframe (head ++ rest) = none := by
  have htake : (head ++ rest).take 4 = head := List.take_left' hfour
  unfold unframe
  split
  · rfl
  · dsimp only
    rw [dif_neg (fun h => by rw [htake] at h; omega)]

/-- Frames arrive as they were sent: in order, each whole, however the kernel cuts the transfers. A stream that ends
within a frame or announces one that is too long makes the next receive fail after the payloads before it; and a
payload that is too long is not sent at all. -/
theorem frames_arrive (payloads : List Payload) (io : List Transfer) (hio : .failed ∉ io) :
    (sendFrames io (payloads.map Subtype.val)).ok = true ∧
    (∀ (io' : List Transfer) (rest payload : Bytes), .failed ∉ io' →
      (receiveFrames payloads.length io' ((sendFrames io (payloads.map Subtype.val)).written ++ rest) payload).1 =
          payloads.map Subtype.val ∧
        (receiveFrames payloads.length io' ((sendFrames io (payloads.map Subtype.val)).written ++ rest) payload).2.ok =
          true ∧
        (receiveFrames payloads.length io'
          ((sendFrames io (payloads.map Subtype.val)).written ++ rest) payload).2.rest = rest) ∧
    (∀ (tail : Bytes), ((∃ (next : Payload) (k : Nat), k < (frame next.val).length ∧ tail = (frame next.val).take k) ∨
        ∃ head rest, head.length = 4 ∧ MAX_FRAME < (ntohl head).toNat ∧ tail = head ++ rest) →
      ∀ (io' : List Transfer) (payload : Bytes),
        (receiveFrames (payloads.length + 1) io'
          ((sendFrames io (payloads.map Subtype.val)).written ++ tail) payload).1 <+: payloads.map Subtype.val ∧
        (receiveFrames (payloads.length + 1) io'
          ((sendFrames io (payloads.map Subtype.val)).written ++ tail) payload).2.ok = false ∧
        (.failed ∉ io' → (receiveFrames (payloads.length + 1) io'
          ((sendFrames io (payloads.map Subtype.val)).written ++ tail) payload).1 = payloads.map Subtype.val)) ∧
    ∀ long : Bytes, MAX_FRAME < long.length → sendFrame io long = ⟨false, [], io⟩ := by
  have hsent := sendFrames_of io payloads
  have hok := hsent.complete hio
  rw [hsent.whole hok]
  refine ⟨hok, fun io' rest payload hio' => ?_, fun tail htail io' payload => ?_, fun long hlong => if_pos hlong⟩
  · obtain ⟨io'', payload', -, hall⟩ := receiveFrames_writeAll hio' payloads rest payload 0
    rw [Nat.add_zero] at hall
    rw [hall]
    exact ⟨List.append_nil _, rfl, rfl⟩
  · have hnone : unframe tail = none := by
      rcases htail with ⟨next, k, hk, rfl⟩ | ⟨head, rest, hfour, hsize, rfl⟩
      · exact @FrontCodec.read_cut _ _ frames next k hk
      · exact unframe_oversized rest hfour hsize
    obtain ⟨hstarts, hfail⟩ := receiveFrames_cut io' payloads payload hnone
    refine ⟨hstarts, hfail, fun hio' => ?_⟩
    obtain ⟨io'', payload', -, hall⟩ := receiveFrames_writeAll hio' payloads tail payload 1
    obtain ⟨hnext, -⟩ := receiveFrames_cut io'' [] payload' hnone
    have hnil : (receiveFrames 1 io'' tail payload').1 = [] := List.prefix_nil.mp hnext
    rw [hall, hnil, List.append_nil]

/-- A greeting and an empty frame, sent and received in pieces. -/
theorem frames_arrive_hello :
    (sendFrames [.upTo 2, .interrupted, .upTo 0] [lit "hello", []]).ok = true ∧
      (receiveFrames 2 [.upTo 0, .upTo 6, .interrupted]
        ((sendFrames [.upTo 2, .interrupted, .upTo 0] [lit "hello", []]).written ++ [7]) [1, 2]).1 =
          [lit "hello", []] := by
  have h := frames_arrive [⟨lit "hello", by decide⟩, ⟨[], by decide⟩] [.upTo 2, .interrupted, .upTo 0] (by decide)
  exact ⟨h.1, (h.2.1 [.upTo 0, .upTo 6, .interrupted] [7] [1, 2] (by decide)).1⟩

end Socket

end TorrentAtlas
