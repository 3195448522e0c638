import TorrentAtlas.Framing
import TorrentAtlas.Library.Conversation

/-!
# Frames as messages (`common/net/net.cpp`)

A frame that was not sent whole is not received at all, and one that was is received in
the same way whatever follows it. So the programs on two sockets can be understood from
their frames.
-/
namespace TorrentAtlas

namespace Socket

/-- A send that fails leaves less than its data. -/
theorem sendAll_short {io : List Transfer} {data : Bytes} (h : (sendAll io data).ok = false) :
    (sendAll io data).written.length < data.length := by
  induction io generalizing data with
  | nil => simp [sendAll] at h
  | cons t more ih =>
    unfold sendAll at h ⊢
    split at h
    · simp at h
    · next hdata =>
      rw [if_neg hdata]
      have hpos : 0 < data.length := List.length_pos_iff.mpr (by simpa using hdata)
      cases t with
      | interrupted => exact ih h
      | failed => exact hpos
      | upTo n =>
        have hrest := ih h
        have htake := List.length_take (i := n + 1) (l := data)
        rw [List.length_drop] at hrest
        simp only [List.length_append]
        omega

theorem sendFrame_short {io : List Transfer} {payload : Bytes} (hsize : payload.length ≤ MAX_FRAME)
    (h : (sendFrame io payload).ok = false) : (sendFrame io payload).written.length < (frame payload).length := by
  have hhead := sendAll_of io (htonl (UInt32.ofNat payload.length))
  unfold sendFrame at *
  rw [if_neg (by omega)] at *
  dsimp only at *
  split at h
  · next hfailed =>
    rw [if_pos hfailed]
    have hshort := sendAll_short h
    rw [frame, List.length_append]
    omega
  · next hsent =>
    rw [if_neg hsent]
    have hshort := sendAll_short h
    rw [hhead.whole (by simpa using hsent), frame, List.length_append, List.length_append]
    dsimp only at *
    omega

/-- Bytes that are there are read in the same way whatever follows them. -/
theorem receiveAll_append (io : List Transfer) (bytes rest : Bytes) {length : Nat} (hlength : length ≤ bytes.length) :
    receiveAll io (bytes ++ rest) length =
      { receiveAll io bytes length with rest := (receiveAll io bytes length).rest ++ rest } := by
  induction io generalizing bytes length with
  | nil =>
    simp only [receiveAll, List.length_append, Received.mk.injEq, decide_eq_decide]
    exact ⟨by omega, List.take_append_of_le_length hlength, List.drop_append_of_le_length hlength, trivial⟩
  | cons t more ih =>
    unfold receiveAll
    split
    · rfl
    · cases t with
      | interrupted => exact ih bytes hlength
      | failed => rfl
      | upTo n =>
        have hmin : min (n + 1) length ≤ bytes.length := by omega
        have hcount : ((bytes ++ rest).take (min (n + 1) length)) = bytes.take (min (n + 1) length) :=
          List.take_append_of_le_length hmin
        have hlen : (bytes.take (min (n + 1) length)).length = min (n + 1) length := by
          rw [List.length_take]
          omega
        dsimp only
        rw [hcount]
        split
        · rfl
        · rw [hlen, List.drop_append_of_le_length hmin, ih (bytes.drop (min (n + 1) length)) (by
            rw [List.length_drop]
            omega)]

theorem receiveFrame_append (io : List Transfer) {payload : Bytes} (hsize : payload.length ≤ MAX_FRAME) (rest : Bytes) :
    receiveFrame io (frame payload ++ rest) [] =
      { receiveFrame io (frame payload) [] with rest := (receiveFrame io (frame payload) []).rest ++ rest } := by
  have hfour : 4 ≤ (frame payload).length := by simp [frame]
  have hhead := receiveAll_of io (frame payload) 4
  unfold receiveFrame
  rw [receiveAll_append io (frame payload) rest hfour]
  dsimp only
  split
  · rfl
  · next hok =>
    have hcut := hhead.cut
    obtain ⟨hdata, hrest⟩ := List.append_inj (hcut.trans rfl : _ = htonl (UInt32.ofNat payload.length) ++ payload)
      ((hhead.whole (by simpa using hok)).trans (length_htonl _).symm)
    rw [hdata, ntohl_htonl, toNat_length hsize, if_neg (by omega), hrest, receiveAll_append _ payload rest le_rfl]
    rw [if_neg (by omega)]

theorem sendFrame_fits {io : List Transfer} {payload : Bytes} (h : (sendFrame io payload).ok = true) :
    payload.length ≤ MAX_FRAME := by
  by_contra hlong
  simp [sendFrame, if_pos (show payload.length > MAX_FRAME by omega)] at h

theorem sendFrame_io (io : List Transfer) (payload : Bytes) : (sendFrame io payload).io <:+ io := by
  by_cases hsize : payload.length ≤ MAX_FRAME
  · exact (sendFrame_of io hsize).io
  · rw [sendFrame, if_pos (by omega)]

theorem receiveFrame_none (io : List Transfer) {stream : Bytes} (h : unframe stream = none) :
    (receiveFrame io stream []).ok = false := by
  rw [Bool.eq_false_iff]
  intro hok
  obtain ⟨p, hread, -⟩ := receiveFrame_sound hok
  rw [h] at hread
  simp at hread

theorem receiveFrame_nil_rest (io : List Transfer) : (receiveFrame io [] []).rest = [] := by
  have hhead := receiveAll_of io [] 4
  obtain ⟨hdata, hrest⟩ := List.append_eq_nil_iff.mp hhead.cut
  have hfailed : (receiveAll io [] 4).ok ≠ true := fun hok => by
    have hlength := hhead.whole hok
    simp [hdata] at hlength
  unfold receiveFrame
  dsimp only
  rw [if_pos (by simpa using hfailed), hrest]

/-- Nothing is received of a frame that was not sent whole. -/
theorem receiveFrame_failed {io : List Transfer} {payload : Bytes} (h : (sendFrame io payload).ok = false)
    (io' : List Transfer) : (receiveFrame io' (sendFrame io payload).written []).ok = false := by
  by_cases hsize : payload.length ≤ MAX_FRAME
  · have hcut := List.prefix_iff_eq_take.mp (sendFrame_of io hsize).written
    rw [hcut]
    exact receiveFrame_none io' (@FrontCodec.read_cut _ _ frames ⟨payload, hsize⟩ _ (sendFrame_short hsize h))
  · rw [sendFrame, if_pos (by omega)]
    exact receiveFrame_none io' rfl

/-- Frames on a socket, received into an empty string. -/
def transport : Transport Bytes UInt8 (List Transfer) where
  fits payload := decide (payload.length ≤ MAX_FRAME)
  frame := frame
  put io payload := ⟨(sendFrame io payload).ok, (sendFrame io payload).written, (sendFrame io payload).io⟩
  get io stream :=
    let received := receiveFrame io stream []
    ⟨if received.ok then some received.data else none, received.rest, received.io⟩
  Calm io := .failed ∉ io
  put_ok {io payload} h := by
    have hsize := sendFrame_fits h
    exact ⟨decide_eq_true hsize, (sendFrame_of io hsize).whole h⟩
  put_failed {io payload} h io' := by
    exact if_neg (by simp [receiveFrame_failed h io'])
  put_calm h hfits := (sendFrame_of _ (of_decide_eq_true hfits)).complete h
  put_io {io payload} h := not_failed_of_suffix h (sendFrame_io io payload)
  get_nil io := ⟨if_neg (by simp [@receiveFrame_none io [] rfl]), receiveFrame_nil_rest io⟩
  get_append io payload rest h := by
    dsimp only
    rw [receiveFrame_append io (of_decide_eq_true h) rest]
  get_frame {io payload payload'} h hget := by
    dsimp only at *
    split at hget
    · next hok =>
      have hframe := receiveFrame_frame ⟨payload, of_decide_eq_true h⟩ [] [] (by rwa [List.append_nil])
      rw [List.append_nil] at hframe
      exact ⟨(Option.some.inj hget).symm.trans hframe.1, hframe.2⟩
    · simp at hget
  get_calm {io payload} hcalm h := by
    have hok := receiveFrame_complete [] hcalm (unframe_frame ⟨payload, of_decide_eq_true h⟩ [])
    have hframe := receiveFrame_frame ⟨payload, of_decide_eq_true h⟩ [] [] hok
    rw [List.append_nil] at hok hframe
    dsimp only at *
    rw [if_pos hok, hframe.1]
  get_io h := not_failed_of_suffix h (receiveFrame_io _ _ _)

end Socket

end TorrentAtlas
