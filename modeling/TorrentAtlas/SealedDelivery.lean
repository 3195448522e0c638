import TorrentAtlas.AtMostOnce
import TorrentAtlas.Framing

/-!
# What an established channel delivers

`SecureChannel::send` passes what `seal` returns to `sendFrame`. A failed encryption
is the empty string, which is a frame like any other, so `send` then reports success
for a frame that no receiver accepts. What the other end accepts is, byte for byte,
a frame that was sealed for its direction.
-/
namespace TorrentAtlas

open Encoding Crypto

namespace SecureChannel

/-- One end of an established channel. -/
structure Channel where
  key : Bytes
  client : Bool
  length_key : key.length = 32

namespace Channel

variable (ssl : OpenSsl) (ch : Channel)

def sendLabel : Bytes := if ch.client then CLIENT_LABEL else TRACKER_LABEL
def receiveLabel : Bytes := if ch.client then TRACKER_LABEL else CLIENT_LABEL

/-- The channel at the other end. -/
def other : Channel := { ch with client := !ch.client }

/-- `seal`. -/
def sealed (random plain : Bytes) : Bytes := sealFrame ssl random ch.key ch.sendLabel plain

def send (random : Bytes) (io : List Transfer) (plain : Bytes) : Socket.Sent :=
  Socket.sendFrame io (ch.sealed ssl random plain)

/-- `receive` on a stream; `none` is false. -/
def receive (io : List Transfer) (stream : Bytes) : Option Bytes :=
  let received := Socket.receiveFrame io stream []
  if !received.ok then none else SecureChannel.receive ssl ch.key ch.receiveLabel received.data

/-- A send that reports success is received as what was sent. -/
def Delivers (random : Bytes) (io : List Transfer) (plain : Bytes) : Prop :=
  (ch.send ssl random io plain).ok = true → ∀ (io' : List Transfer) (rest : Bytes), .failed ∉ io' →
    ch.other.receive ssl io' ((ch.send ssl random io plain).written ++ rest) = some plain

/-- The random generator, the size of the plaintext and the cipher let `encrypt` succeed. -/
def Encrypts (random plain : Bytes) : Prop :=
  random.length = NONCE_SIZE ∧ plain.length ≤ INT_MAX ∧ (ssl.gcmSeal ch.key random ch.sendLabel plain).isSome = true

@[simp] theorem other_key : ch.other.key = ch.key := rfl

@[simp] theorem other_receiveLabel : ch.other.receiveLabel = ch.sendLabel := by
  unfold receiveLabel sendLabel other
  cases ch.client <;> simp

@[simp] theorem other_sendLabel : ch.other.sendLabel = ch.receiveLabel := by
  unfold receiveLabel sendLabel other
  cases ch.client <;> simp

theorem labels_ne : ch.sendLabel ≠ ch.receiveLabel := by
  unfold sendLabel receiveLabel
  cases ch.client <;> decide

theorem fitsInt_sendLabel : fitsInt ch.sendLabel.length = true := by
  unfold sendLabel
  cases ch.client <;> decide

variable {ssl ch} {random plain : Bytes} {io : List Transfer}

theorem encrypts_iff : ch.Encrypts ssl random plain ↔ ∃ m, encrypt ssl random ch.key ch.sendLabel plain = some m := by
  constructor
  · rintro ⟨hrandom, hplain, hseal⟩
    obtain ⟨s, hs⟩ := Option.isSome_iff_exists.mp hseal
    have hfits : fitsInt plain.length = true := by simpa [fitsInt] using hplain
    exact ⟨⟨random, s.1, s.2⟩, by simp [encrypt, ch.length_key, ch.fitsInt_sendLabel, hrandom, hfits, hs]⟩
  · rintro ⟨m, hm⟩
    obtain ⟨-, hrandom, -, hplain, -, -, -, hs⟩ := encrypt_eq_some ssl hm
    exact ⟨hrandom, by simpa [fitsInt] using hplain, by rw [hs]; rfl⟩

/-- A frame on the stream is what the channel decrypts. -/
theorem receive_frame (ch : Channel) {payload : Bytes} (hsize : payload.length ≤ MAX_FRAME) (rest : Bytes)
    (hio : .failed ∉ io) :
    ch.receive ssl io (Socket.frame payload ++ rest) = SecureChannel.receive ssl ch.key ch.receiveLabel payload := by
  have hok := Socket.receiveFrame_complete [] hio (Socket.unframe_frame ⟨payload, hsize⟩ rest)
  obtain ⟨hdata, -⟩ := Socket.receiveFrame_frame ⟨payload, hsize⟩ rest [] hok
  unfold receive
  dsimp only at *
  rw [if_neg (by simp [hok]), hdata]

/-- A sealed message is opened by the other end. -/
theorem receive_sealed (hopens : ∀ k n a p c t, ssl.gcmSeal k n a p = some (c, t) → ssl.gcmOpen k n a c t = some p)
    {key label : Bytes} {m : AesGcmMessage} (h : encrypt ssl random key label plain = some m) :
    SecureChannel.receive ssl key label (frameOf m) = some plain := by
  obtain ⟨hkey, hrandom, hlabel, hplain, hnonce, hc, ht, hs⟩ := encrypt_eq_some ssl h
  have hn : m.nonce.length = NONCE_SIZE := by rw [hnonce, hrandom]
  have hlen : ¬ (frameOf m).length < 28 := by
    simp only [frameOf, List.length_append, hn, ht, NONCE_SIZE, TAG_SIZE]
    omega
  rw [SecureChannel.receive, if_neg hlen, messageOf_frameOf hn ht]
  simp [decrypt, hkey, hlabel, hplain, hc, ht, hnonce, hrandom, hopens _ _ _ _ _ _ hs]

theorem sealed_of_encrypt {m : AesGcmMessage} (h : encrypt ssl random ch.key ch.sendLabel plain = some m) :
    ch.sealed ssl random plain = frameOf m := by simp [sealed, sealFrame, h]

theorem sealed_of_failure (h : ¬ ch.Encrypts ssl random plain) : ch.sealed ssl random plain = [] := by
  have hnone : encrypt ssl random ch.key ch.sendLabel plain = none := by
    by_contra hne
    exact h (encrypts_iff.mpr (Option.ne_none_iff_exists'.mp hne))
  simp [sealed, sealFrame, hnone]

/-- The empty frame is four zero bytes. -/
theorem sendFrame_nil (io : List Transfer) :
    (Socket.sendFrame io []).ok = (Socket.sendAll io (htonl 0)).ok := by
  have hhead : UInt32.ofNat ([] : Bytes).length = 0 := rfl
  unfold Socket.sendFrame
  rw [if_neg (by simp), hhead]
  dsimp only
  split
  · rfl
  · next hok =>
    have hbody : ∀ io, (Socket.sendAll io []).ok = true := by
      intro io
      cases io <;> rfl
    rw [hbody]
    simpa using Eq.symm (by simpa using hok)

/-- What is sealed is delivered whenever `send` says so. -/
theorem delivers_of_encrypts
    (hopens : ∀ k n a p c t, ssl.gcmSeal k n a p = some (c, t) → ssl.gcmOpen k n a c t = some p)
    (h : ch.Encrypts ssl random plain) : ch.Delivers ssl random io plain := by
  obtain ⟨m, hm⟩ := encrypts_iff.mp h
  intro hok io' rest hio'
  unfold send at *
  rw [sealed_of_encrypt hm] at *
  have hsize : (frameOf m).length ≤ MAX_FRAME := by
    by_contra hlong
    simp [Socket.sendFrame, if_pos (show (frameOf m).length > MAX_FRAME by omega)] at hok
  rw [(Socket.sendFrame_of io hsize).whole hok, receive_frame _ hsize rest hio', other_key, other_receiveLabel]
  exact receive_sealed hopens hm

/-- A failed encryption is reported as a success by any socket that takes the empty frame. -/
theorem not_delivers (h : ¬ ch.Encrypts ssl random plain) (hsocket : (Socket.sendAll io (htonl 0)).ok = true) :
    ¬ ch.Delivers ssl random io plain := by
  intro hdelivers
  have hok : (ch.send ssl random io plain).ok = true := by rw [send, sealed_of_failure h, sendFrame_nil, hsocket]
  have hreceived := hdelivers hok [] [] (by simp)
  unfold send at hok hreceived
  rw [sealed_of_failure h] at hok hreceived
  rw [(Socket.sendFrame_of io (Nat.zero_le _)).whole hok, receive_frame _ (Nat.zero_le _) [] (by simp)] at hreceived
  simp [SecureChannel.receive] at hreceived

theorem delivers_iff
    (hopens : ∀ k n a p c t, ssl.gcmSeal k n a p = some (c, t) → ssl.gcmOpen k n a c t = some p) :
    ch.Delivers ssl random io plain ↔
      ch.Encrypts ssl random plain ∨ (Socket.sendAll io (htonl 0)).ok = false := by
  constructor
  · intro hdelivers
    by_contra hno
    simp only [not_or, Bool.not_eq_false] at hno
    exact not_delivers hno.1 hno.2 hdelivers
  · rintro (h | hsocket)
    · exact delivers_of_encrypts hopens h
    · by_cases h : ch.Encrypts ssl random plain
      · exact delivers_of_encrypts hopens h
      · intro hok
        rw [send, sealed_of_failure h, sendFrame_nil, hsocket] at hok
        exact absurd hok (by simp)

end Channel

/-- Encryptions that share no nonce and no tag. -/
def Fresh (ssl : OpenSsl) (log : List Sealing) : Prop :=
  ∀ s ∈ log, ∀ t ∈ log, ∀ m m', s.message ssl = some m → t.message ssl = some m' →
    m.nonce = m'.nonce ∨ m.tag = m'.tag → s = t

/-- A frame cut short, or with one byte changed. -/
inductive Damaged (frame : Bytes) : Bytes → Prop
  | truncated (k : Nat) (hk : k < frame.length) : Damaged frame (frame.take k)
  | changed (j : Nat) (b : UInt8) (hj : j < frame.length) (hb : frame[j]? ≠ some b) : Damaged frame (frame.set j b)

section Integrity

variable {ssl : OpenSsl} {key label frame plain : Bytes} {log : List Sealing}

/-- What is accepted has been sealed, byte for byte, for this direction. -/
theorem sealed_of_receive (hideal : IdealGcm ssl log (messageOf frame)) (h : receive ssl key label frame = some plain) :
    ∃ s ∈ log, s.key = key ∧ s.aad = label ∧ s.plain = plain ∧ s.message ssl = some (messageOf frame) ∧
      sealedFrame ssl s = frame := by
  obtain ⟨hlen, hdecrypt⟩ := receive_eq_some h
  obtain ⟨s, hs, hkey, haad, hplain, hmessage⟩ := hideal _ _ _ hdecrypt
  refine ⟨s, hs, hkey, haad, hplain, hmessage, ?_⟩
  have hencrypt : encrypt ssl s.random s.key s.aad s.plain = some (messageOf frame) := hmessage
  rw [sealedFrame, sealFrame, hencrypt]
  simp only [frameOf, messageOf]
  rw [List.append_assoc, show (28 : Nat) = 12 + 16 from rfl, ← List.drop_drop, List.take_append_drop,
    List.take_append_drop]

/-- With a committing cipher, a frame of the other direction is not accepted. -/
theorem receive_own (hideal : IdealGcm ssl log (messageOf frame)) (hcommit : Committing ssl log) {s : Sealing}
    (hs : s ∈ log) (hframe : sealedFrame ssl s = frame) (haad : s.aad ≠ label) :
    receive ssl key label frame = none := by
  by_contra hne
  obtain ⟨plain, h⟩ := Option.ne_none_iff_exists'.mp hne
  obtain ⟨t, ht, -, htaad, -, hmessage, -⟩ := sealed_of_receive hideal h
  have hmine := message_of_sealedFrame hframe (receive_eq_some h).1
  obtain ⟨-, hsame, -⟩ := hcommit s hs t ht _ hmine hmessage
  exact haad (hsame.trans htaad)

/-- Damage leaves the nonce or the tag of a frame alone, if it leaves enough to be read. -/
theorem Damaged.nonce_or_tag {f : Bytes} (h : Damaged f frame) (hlen : 28 ≤ frame.length) :
    (messageOf f).nonce = (messageOf frame).nonce ∨ (messageOf f).tag = (messageOf frame).tag := by
  cases h with
  | truncated k hk =>
    rw [List.length_take] at hlen
    left
    simp only [messageOf, List.take_take]
    rw [Nat.min_eq_left (by omega)]
  | changed j b hj hb =>
    by_cases hnonce : j < 12
    · right
      simp only [messageOf, List.drop_set, if_pos hnonce]
    · left
      simp only [messageOf, List.take_set]
      rw [List.set_eq_of_length_le (by rw [List.length_take]; omega)]

theorem Damaged.ne {f : Bytes} (h : Damaged f frame) : frame ≠ f := by
  intro he
  cases h with
  | truncated k hk =>
    have := congrArg List.length he
    rw [List.length_take] at this
    omega
  | changed j b hj hb =>
    refine hb ?_
    conv_lhs => rw [← he]
    exact List.getElem?_set_self hj

theorem receive_damaged (hideal : IdealGcm ssl log (messageOf frame)) (hfresh : Fresh ssl log) {s : Sealing}
    (hs : s ∈ log) (hdamaged : Damaged (sealedFrame ssl s) frame) : receive ssl key label frame = none := by
  by_contra hne
  obtain ⟨plain, h⟩ := Option.ne_none_iff_exists'.mp hne
  have hlen := (receive_eq_some h).1
  obtain ⟨t, ht, -, -, -, hmessage, hframe⟩ := sealed_of_receive hideal h
  have hlong : 28 ≤ (sealedFrame ssl s).length := by
    cases hdamaged with
    | truncated k hk => rw [List.length_take] at hlen; omega
    | changed j b hj hb => rwa [List.length_set] at hlen
  have hmine := message_of_sealedFrame rfl hlong
  have hsame : s = t := hfresh s hs t ht _ _ hmine hmessage (hdamaged.nonce_or_tag hlen)
  exact hdamaged.ne (by rw [hsame, hframe])

end Integrity

/-- A successful `send` is received as what was sent exactly if the encryption succeeded, or the socket did not even
take the empty frame that a failed one leaves. Of all the frames that may arrive, an end accepts those sealed by the
other end; not its own ones, and none that was cut short or changed. -/
theorem sealed_delivery_iff (ssl : OpenSsl)
    (hopens : ∀ k n a p c t, ssl.gcmSeal k n a p = some (c, t) → ssl.gcmOpen k n a c t = some p)
    (ch : Channel) (random plain : Bytes) (io : List Transfer) :
    (ch.Delivers ssl random io plain ↔
      ch.Encrypts ssl random plain ∨ (Socket.sendAll io (htonl 0)).ok = false) ∧
    ∀ (log : List Sealing) (io' : List Transfer) (stream frame : Bytes),
      frame = (Socket.receiveFrame io' stream []).data → IdealGcm ssl log (messageOf frame) →
      (∀ p, ch.receive ssl io' stream = some p → ∃ s ∈ log, s.key = ch.key ∧ s.aad = ch.other.sendLabel ∧
        s.plain = p ∧ sealedFrame ssl s = frame) ∧
      (Committing ssl log → ∀ s ∈ log, s.aad = ch.sendLabel → sealedFrame ssl s = frame →
        ch.receive ssl io' stream = none) ∧
      (Fresh ssl log → ∀ s ∈ log, Damaged (sealedFrame ssl s) frame → ch.receive ssl io' stream = none) := by
  refine ⟨Channel.delivers_iff hopens, fun log io' stream frame hframe hideal => ?_⟩
  subst hframe
  have hreceive : ch.receive ssl io' stream = none ∨ ch.receive ssl io' stream =
      receive ssl ch.key ch.receiveLabel (Socket.receiveFrame io' stream []).data := by
    unfold Channel.receive
    dsimp only
    split
    · exact Or.inl rfl
    · exact Or.inr rfl
  refine ⟨fun p hp => ?_, fun hcommit s hs haad hframe => ?_, fun hfresh s hs hdamaged => ?_⟩
  · rcases hreceive with hnone | hsame
    · rw [hnone] at hp
      simp at hp
    · rw [hsame] at hp
      obtain ⟨s, hs, hkey, haad, hplain, -, hframe⟩ := sealed_of_receive hideal hp
      exact ⟨s, hs, hkey, haad.trans ch.other_sendLabel.symm, hplain, hframe⟩
  · rcases hreceive with hnone | hsame
    · exact hnone
    · exact hsame.trans (receive_own hideal hcommit hs hframe (haad ▸ ch.labels_ne))
  · rcases hreceive with hnone | hsame
    · exact hnone
    · exact hsame.trans (receive_damaged hideal hfresh hs hdamaged)

section Example

open World in
/-- The client's end of the example connection. -/
def exampleChannel : Channel := ⟨channelKey, true, by decide⟩

open World in
theorem sealed_delivery_list_groups :
    exampleChannel.Delivers sealedRecording.replay requestSealing.random [.upTo 3] listGroups := by
  have hproper : sealedRecording.Proper := by decide +kernel
  refine (sealed_delivery_iff sealedRecording.replay (Recording.gcmCorrect hproper).opens exampleChannel
    requestSealing.random listGroups [.upTo 3]).1.mpr (Or.inl ?_)
  exact ⟨by decide, by decide, rfl⟩

/-- With no random bytes to be had, the client is told that its request is out; the tracker gets an empty frame. -/
theorem unsealed_reported_sent :
    (exampleChannel.send World.sealedRecording.replay [] [] World.listGroups).ok = true ∧
      (exampleChannel.send World.sealedRecording.replay [] [] World.listGroups).written = [0, 0, 0, 0] ∧
      ¬ exampleChannel.Delivers World.sealedRecording.replay [] [] World.listGroups := by
  have hno : ¬ exampleChannel.Encrypts World.sealedRecording.replay [] World.listGroups :=
    fun h => absurd h.1 (by decide)
  have hsealed := Channel.sealed_of_failure hno
  refine ⟨?_, ?_, Channel.not_delivers hno rfl⟩
  · rw [Channel.send, hsealed]
    rfl
  · rw [Channel.send, hsealed]
    rfl

end Example

end SecureChannel

end TorrentAtlas
