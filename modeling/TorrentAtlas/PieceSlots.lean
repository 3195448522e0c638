import TorrentAtlas.DownloadProgress

/-!
# Where a fetched piece is written

The place of a piece ends with the piece, but the data written there is as long as
the seeder made it: it has been checked against the hash, not against the length.
-/
namespace TorrentAtlas

open Encoding Crypto PieceFile

namespace FileMetadata

variable {m : FileMetadata} {i j : Nat}

/-- The places of two pieces do not overlap. -/
theorem places_disjoint (hne : i ≠ j) :
    pieceOffset j + m.pieceLength j ≤ pieceOffset i ∨ pieceOffset i + PIECE_SIZE ≤ pieceOffset j := by
  have hlen := m.pieceLength_le j
  simp only [pieceOffset, PIECE_SIZE] at *
  omega

end FileMetadata

/-- `after` differs from `before` within the place of piece `i` only. -/
structure InPlace (m : FileMetadata) (i : Nat) (before after : Bytes) : Prop where
  length : after.length = m.size.toNat
  outside : ∀ p, p < pieceOffset i ∨ pieceOffset i + m.pieceLength i ≤ p → after[p]? = before[p]?
  other : ∀ j < m.pieceCount, j ≠ i → m.piece after j = m.piece before j

theorem inPlace_of_outside {m : FileMetadata} {i : Nat} {before after : Bytes}
    (hlength : after.length = m.size.toNat)
    (h : ∀ p, p < pieceOffset i ∨ pieceOffset i + m.pieceLength i ≤ p → after[p]? = before[p]?) :
    InPlace m i before after := by
  refine ⟨hlength, h, fun j _ hne => AgreesOn.iff_slice.mp fun p hlo hhi => h p ?_⟩
  have hfits := m.pieceLength_le i
  have hdisjoint := @FileMetadata.places_disjoint m i j (Ne.symm hne)
  omega

theorem length_pwrite {contents : Bytes} {offset : Nat} {data : Bytes} (h : offset + data.length ≤ contents.length) :
    (pwrite contents offset data).length = contents.length := by
  simp only [pwrite, List.length_append, List.length_take, List.length_replicate, List.length_drop]
  omega

/-- A round of `write` with data that fits its place. -/
theorem writeStep_inPlace {m : FileMetadata} {i : Nat} {file data contents : Bytes} {done done' : Nat} {io : Transfer}
    (hplace : pieceOffset i + m.pieceLength i ≤ m.size.toNat) (hfits : data.length ≤ m.pieceLength i)
    (hmore : done < data.length) (hfile : file.length = m.size.toNat)
    (h : writeStep file i data done io = some (contents, done')) : InPlace m i file contents := by
  cases io with
  | failed => simp [writeStep] at h
  | interrupted =>
    obtain ⟨rfl, -⟩ := Prod.mk.inj (Option.some.inj h)
    exact inPlace_of_outside hfile fun _ _ => rfl
  | upTo n =>
    obtain ⟨rfl, -⟩ := Prod.mk.inj (Option.some.inj h)
    have hchunk : ((data.drop done).take (n + 1)).length ≤ data.length - done := by simp
    generalize (data.drop done).take (n + 1) = chunk at *
    generalize hoff : pieceOffset i = offset at *
    refine inPlace_of_outside ?_ fun p hp => ?_
    · rw [length_pwrite (by omega), hfile]
    · rw [hoff] at hp
      rw [getElem?_pwrite]
      by_cases hlow : p < offset + done
      · rw [if_pos hlow, if_pos (by omega)]
      · rw [if_neg hlow, if_neg (by omega)]

namespace Download

variable (ssl : OpenSsl) (m : FileMetadata) (i : Nat) (data : Bytes)

/-- A worker has asked for piece `i` and been answered with `data`; whatever the download and its file have become
by then, each write of `data` stays in the place of the piece. -/
def FetchInPlace : Prop :=
  ∀ (d later : Download) (k attempt seeder done : Nat) (now : Int) (located : Option (List SeederAccess))
    (file before after : Bytes) (io : Transfer),
    d.metadata = m → d.workers[k]? = some (.requesting i attempt seeder) →
    (d.workerStep ssl file k (.reply now located (.success, data))).1.workers[k]? =
      some (.writing i attempt data 0) →
    later.workers[k]? = some (.writing i attempt data done) → before.length = m.size.toNat →
    (later.workerStep ssl before k (.io io)).2 = .write after → InPlace m i before after

variable {ssl m i data}

theorem workerStep_writing {d : Download} {k attempt done : Nat} {file contents : Bytes} {io : Transfer}
    (hw : d.workers[k]? = some (.writing i attempt data done))
    (h : (d.workerStep ssl file k (.io io)).2 = .write contents) :
    done < data.length ∧ ∃ done', writeStep file i data done io = some (contents, done') := by
  simp only [workerStep, hw] at h
  split at h
  · simp at h
  · next hmore =>
    split at h
    · simp at h
    · next contents' done' hstep =>
      obtain rfl : contents' = contents := by simpa using h
      exact ⟨by omega, done', hstep⟩

/-- An answer is written only if it has the hash of the piece. -/
theorem workerStep_accepts {d : Download} {k attempt seeder : Nat} {now : Int} {located : Option (List SeederAccess)}
    {file : Bytes} (hw : d.workers[k]? = some (.requesting i attempt seeder)) :
    (d.workerStep ssl file k (.reply now located (.success, data))).1.workers[k]? = some (.writing i attempt data 0) ↔
      sha1Hex ssl data = d.pieceHash i := by
  have hk : k < d.workers.length := (List.getElem?_eq_some_iff.mp hw).1
  simp only [workerStep, hw, answerStep]
  by_cases hhash : sha1Hex ssl data = d.pieceHash i
  · have hfetch : ∀ seeders, PeerClient.fetchPiece ssl (pieceHash { d with seeders } i) (.success, data) =
        (.success, data) := fun _ => if_neg (not_not.mpr hhash)
    rw [hfetch]
    simp [setWorker, hk, hhash]
  · have hfetch : ∀ seeders, PeerClient.fetchPiece ssl (pieceHash { d with seeders } i) (.success, data) =
        (.integrityFailure, data) := fun _ => if_pos hhash
    rw [hfetch]
    simp [setWorker, hk, hhash]

/-- A download with one worker, which waits for piece `i`. -/
def requesting (m : FileMetadata) (i : Nat) : Download :=
  { create [] [] [] m [] with phase := .fetching, workers := [.requesting i 0 0] }

/-- Data that is too long is written past the end of its place. -/
theorem not_fetchInPlace (hhash : sha1Hex ssl data = m.pieceHashes.getD i []) (hlong : m.pieceLength i < data.length) :
    ¬ FetchInPlace ssl m i data := by
  intro h
  obtain ⟨b, hb⟩ : ∃ b, data[m.pieceLength i]? = some b := ⟨_, List.getElem?_eq_getElem hlong⟩
  have hplace := h (requesting m i) ((requesting m i).setWorker 0 (.writing i 0 data 0)) 0 0 0 0 0 none []
    (List.replicate m.size.toNat (b + 1)) (pwrite (List.replicate m.size.toNat (b + 1)) (pieceOffset i) data)
    (.upTo data.length) rfl rfl ((workerStep_accepts rfl).mpr hhash) rfl (by simp) (by
      have hpos : 0 < data.length := by omega
      have hall : data.take (data.length + 1) = data := List.take_of_length_le (by omega)
      simp [workerStep, setWorker, requesting, writeStep, Nat.not_le.mpr hpos, hall])
  have hend := hplace.outside (pieceOffset i + m.pieceLength i) (Or.inr (Nat.le_refl _))
  rw [getElem?_pwrite, if_neg (by omega), if_pos (by omega), Nat.add_sub_cancel_left, hb, List.getElem?_replicate] at hend
  split at hend
  · have := Option.some.inj hend
    simp at this
  · simp at hend

/-- Fetching a piece stays in place exactly if the data that has its hash is no longer than the piece. -/
theorem fetchInPlace_iff (ssl : OpenSsl) (m : FileMetadata) (hvalid : m.valid = true) (i : Nat) (hi : i < m.pieceCount)
    (data : Bytes) : FetchInPlace ssl m i data ↔
      (sha1Hex ssl data = m.pieceHashes.getD i [] → data.length ≤ m.pieceLength i) := by
  constructor
  · intro h hhash
    by_contra hlong
    exact not_fetchInPlace hhash (by omega) h
  · intro hfits d later k attempt seeder done now located file before after io hm hw haccepted hlater hbefore heffect
    have hhash := (workerStep_accepts hw).mp haccepted
    rw [pieceHash, hm] at hhash
    obtain ⟨hmore, done', hstep⟩ := workerStep_writing hlater heffect
    exact writeStep_inPlace (FileMetadata.piece_end_le (FileMetadata.valid_count hvalid) hi) (hfits hhash) hmore hbefore
      hstep

section Example

def sha1Recording : Recording where
  sha1 := [(lit "a", ofHex 20 0x86f7e437faa5a7fce15d1ddcb9eaeaea377667b8),
    (lit "ab", ofHex 20 0xda23614e02469a0d7c7bd1bdab5c9c474b1904dc)]

/-- One byte, with the piece hash of one byte. -/
def honestMetadata : FileMetadata :=
  ⟨1, lit "86f7e437faa5a7fce15d1ddcb9eaeaea377667b8", [lit "86f7e437faa5a7fce15d1ddcb9eaeaea377667b8"]⟩

/-- One byte, with the piece hash of two. -/
def hostileMetadata : FileMetadata :=
  ⟨1, lit "86f7e437faa5a7fce15d1ddcb9eaeaea377667b8", [lit "da23614e02469a0d7c7bd1bdab5c9c474b1904dc"]⟩

theorem fetchInPlace_honest : FetchInPlace sha1Recording.replay honestMetadata 0 (lit "a") :=
  (fetchInPlace_iff sha1Recording.replay honestMetadata (by decide +kernel) 0 (by decide) (lit "a")).mpr
    (fun _ => by decide +kernel)

/-- The metadata is valid and the seeder's answer has the hash, but writing it makes the file longer. -/
theorem fetchInPlace_hostile : hostileMetadata.valid = true ∧ 0 < hostileMetadata.pieceCount ∧
    ¬ FetchInPlace sha1Recording.replay hostileMetadata 0 (lit "ab") :=
  ⟨by decide +kernel, by decide, not_fetchInPlace (by decide +kernel) (by decide +kernel)⟩

end Example

end Download

end TorrentAtlas
