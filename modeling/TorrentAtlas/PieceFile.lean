import TorrentAtlas.Crypto
import TorrentAtlas.FileMetadata
import TorrentAtlas.Library.Agreement

/-!
# Piece-sized file access (`client/storage/piece_file.cpp`)

The contents of an open file are a byte string. `pread` and `pwrite` may move
fewer bytes than asked for, be interrupted or fail, so the read and write loops
take the outcome of each call as an argument: `readStep` and `writeStep` are one
round of a loop, `read` a whole one.
-/
namespace TorrentAtlas

open Encoding Crypto

/-- The outcome of one `pread` or `pwrite`; `upTo n` moves at most `n + 1` bytes. -/
inductive Transfer
  | upTo (n : Nat)
  | interrupted
  | failed
  deriving DecidableEq, Repr

/-- At most `count` bytes at `offset`, none past the end of the file. -/
def pread (contents : Bytes) (offset count : Nat) : Bytes := (contents.drop offset).take count

/-- `data` written at `offset`; a gap after the old end reads as zeros. -/
def pwrite (contents : Bytes) (offset : Nat) (data : Bytes) : Bytes :=
  contents.take offset ++ List.replicate (offset - contents.length) 0 ++ data ++
    contents.drop (offset + data.length)

/-- `ftruncate`: cut to `size` bytes, or extend with zeros. -/
def ftruncate (contents : Bytes) (size : Nat) : Bytes :=
  contents.take size ++ List.replicate (size - contents.length) 0

theorem getElem?_pwrite (contents : Bytes) (offset : Nat) (data : Bytes) (j : Nat) :
    (pwrite contents offset data)[j]? =
      if j < offset then (if j < contents.length then contents[j]? else some 0)
      else if j < offset + data.length then data[j - offset]? else contents[j]? := by
  have hgap : (contents.take offset ++ List.replicate (offset - contents.length) 0).length = offset := by
    rw [List.length_append, List.length_take, List.length_replicate]
    omega
  have hdata : (contents.take offset ++ List.replicate (offset - contents.length) 0 ++ data).length =
      offset + data.length := by rw [List.length_append, hgap]
  rw [pwrite, List.getElem?_append, hdata, List.getElem?_append, hgap, List.getElem?_append]
  by_cases h₁ : j < offset
  · rw [if_pos (by omega), if_pos h₁, if_pos h₁, List.length_take]
    by_cases h₂ : j < contents.length
    · rw [if_pos (by omega), if_pos h₂, List.getElem?_take, if_pos h₁]
    · rw [if_neg (by omega), if_neg h₂, List.getElem?_replicate, if_pos (by omega)]
  · rw [if_neg h₁, if_neg h₁, List.getElem?_drop]
    by_cases h₃ : j < offset + data.length
    · rw [if_pos h₃, if_pos h₃]
    · rw [if_neg h₃, if_neg h₃, Nat.add_sub_cancel' (by omega)]

theorem getElem?_ftruncate (contents : Bytes) (size j : Nat) :
    (ftruncate contents size)[j]? =
      if j < size then (if j < contents.length then contents[j]? else some 0) else none := by
  rw [ftruncate, List.getElem?_append, List.length_take, List.getElem?_take, List.getElem?_replicate]
  by_cases h₁ : j < size
  · by_cases h₂ : j < contents.length
    · rw [if_pos (by omega), if_pos h₁, if_pos h₁, if_pos h₂]
    · rw [if_neg (by omega), if_pos (by omega), if_pos h₁, if_neg h₂]
  · rw [if_neg (by omega), if_neg (by omega), if_neg h₁]

/-- Writing the target's own bytes in their place loses no agreement with it. -/
theorem toward_pwrite {target contents data : Bytes} {offset : Nat} (hne : data ≠ [])
    (hdata : ∀ k < data.length, target[offset + k]? = data[k]?) :
    Toward target contents (pwrite contents offset data) := by
  intro j hj
  unfold AgreesAt at *
  rw [getElem?_pwrite]
  split
  · next hlt =>
    split
    · exact hj
    · next hend =>
      have hpos := List.length_pos_iff.mpr hne
      have hfirst := hdata 0 hpos
      rw [List.getElem?_eq_none (by omega), Eq.comm, List.getElem?_eq_none_iff] at hj
      rw [List.getElem?_eq_none (by omega), Eq.comm, List.getElem?_eq_none_iff] at hfirst
      omega
  · next hge =>
    split
    · next hlt =>
      rw [← hdata (j - offset) (by omega), Nat.add_sub_cancel' (by omega)]
    · exact hj

theorem agreesOn_pwrite {target contents data : Bytes} {offset : Nat}
    (hdata : ∀ k < data.length, target[offset + k]? = data[k]?) :
    AgreesOn target (pwrite contents offset data) offset (offset + data.length) := by
  intro j hge hlt
  unfold AgreesAt
  rw [getElem?_pwrite, if_neg (by omega), if_pos hlt, ← hdata (j - offset) (by omega), Nat.add_sub_cancel' hge]

/-- Cutting a file to the target's size loses no agreement with it. -/
theorem toward_ftruncate (target contents : Bytes) : Toward target contents (ftruncate contents target.length) := by
  intro j hj
  unfold AgreesAt at *
  rw [getElem?_ftruncate]
  split
  · next hlt =>
    rw [List.getElem?_eq_getElem hlt] at hj
    have hin : j < contents.length := (List.getElem?_eq_some_iff.mp hj).1
    rw [if_pos hin, hj, List.getElem?_eq_getElem hlt]
  · next hge => rw [List.getElem?_eq_none (by omega)]

namespace PieceFile

/-- Byte offset where a piece starts. -/
def pieceOffset (index : Nat) : Nat := index * PIECE_SIZE

/-- One round of `read` with `data` read so far; `none` ends the loop with false. -/
def readStep (contents : Bytes) (index length : Nat) (data : Bytes) : Transfer → Option Bytes
  | .interrupted => some data
  | .failed => none
  | .upTo n =>
    let count := pread contents (pieceOffset index + data.length) (min (n + 1) (length - data.length))
    if count.isEmpty then none else some (data ++ count)

/-- `read` from `data` on, with the outcomes of its calls; calls after these move all that is left. -/
def readLoop (contents : Bytes) (index length : Nat) : List Transfer → Bytes → Option Bytes
  | [], data =>
    let rest := pread contents (pieceOffset index + data.length) (length - data.length)
    if rest.length < length - data.length then none else some (data ++ rest)
  | io :: more, data =>
    if length ≤ data.length then some data
    else
      match readStep contents index length data io with
      | none => none
      | some data => readLoop contents index length more data

def read (contents : Bytes) (io : List Transfer) (index length : Nat) : Option Bytes :=
  readLoop contents index length io []

/-- One round of `write` after `done` bytes of `data`: the new contents and the new `done`. -/
def writeStep (contents : Bytes) (index : Nat) (data : Bytes) (done : Nat) : Transfer → Option (Bytes × Nat)
  | .interrupted => some (contents, done)
  | .failed => none
  | .upTo n =>
    let chunk := (data.drop done).take (n + 1)
    some (pwrite contents (pieceOffset index + done) chunk, done + chunk.length)

/-- The blocks `hash` reads; `rounds` bounds their number. -/
def blocks : Nat → Bytes → List Bytes
  | 0, _ => []
  | rounds + 1, input => if input.isEmpty then [] else input.take PIECE_SIZE :: blocks rounds (input.drop PIECE_SIZE)

/-- The metadata of a readable regular file with these contents. -/
def hash (ssl : OpenSsl) (contents : Bytes) : FileMetadata :=
  ⟨UInt64.ofNat contents.length, sha1Hex ssl contents, (blocks contents.length contents).map (sha1Hex ssl)⟩

/-- What one block read by `hash` leads to. -/
inductive HashStep
  | failed
  | more (data : Bytes)
  | done (metadata : FileMetadata)
  deriving DecidableEq, Repr

/-- One block of the loop in `hash` with `data` read so far. A file ends before offset 2 ^ 63. -/
def hashStep (ssl : OpenSsl) (contents data : Bytes) : Transfer → HashStep
  | .interrupted => .more data
  | .failed => .failed
  | .upTo _ =>
    let block := pread contents data.length PIECE_SIZE
    if 2 ^ 63 ≤ data.length + block.length then .failed
    else if block.length < PIECE_SIZE then .done (hash ssl (data ++ block))
    else .more (data ++ block)

theorem pread_append (contents : Bytes) (offset a b : Nat) :
    pread contents offset a ++ pread contents (offset + a) b = pread contents offset (a + b) := by
  simp only [pread, ← List.drop_drop]
  rw [List.take_add]

theorem length_pread (contents : Bytes) (offset count : Nat) :
    (pread contents offset count).length = min count (contents.length - offset) := by
  simp [pread]

/-- A round of `read` keeps what was read a slice of the file. -/
theorem readStep_eq_some {contents : Bytes} {index length : Nat} {data data' : Bytes} {io : Transfer}
    (hlen : data.length ≤ length) (hdata : data = pread contents (pieceOffset index) data.length)
    (h : readStep contents index length data io = some data') :
    data'.length ≤ length ∧ data' = pread contents (pieceOffset index) data'.length := by
  cases io with
  | interrupted => cases h; exact ⟨hlen, hdata⟩
  | failed => simp [readStep] at h
  | upTo n =>
    simp only [readStep] at h
    split at h
    · simp at h
    · next hne =>
      cases h
      generalize hcount : min (n + 1) (length - data.length) = count at *
      have hchunk := length_pread contents (pieceOffset index + data.length) count
      refine ⟨by rw [List.length_append, hchunk]; omega, ?_⟩
      have hshort : pread contents (pieceOffset index + data.length) count =
          pread contents (pieceOffset index + data.length)
            (pread contents (pieceOffset index + data.length) count).length := by
        simp only [pread, List.length_take, List.take_eq_take_iff]
        omega
      rw [List.length_append, ← pread_append, ← hshort, ← hdata]

theorem readLoop_eq_some {contents : Bytes} {index length : Nat} {io : List Transfer} {data data' : Bytes}
    (hlen : data.length ≤ length) (hdata : data = pread contents (pieceOffset index) data.length)
    (h : readLoop contents index length io data = some data') :
    data'.length = length ∧ data' = pread contents (pieceOffset index) length := by
  induction io generalizing data with
  | nil =>
    simp only [readLoop] at h
    split at h
    · simp at h
    · next hall =>
      cases h
      have hrest := length_pread contents (pieceOffset index + data.length) (length - data.length)
      refine ⟨by rw [List.length_append]; omega, ?_⟩
      have hjoin := pread_append contents (pieceOffset index) data.length (length - data.length)
      rw [← hdata, Nat.add_sub_cancel' hlen] at hjoin
      exact hjoin
  | cons t more ih =>
    simp only [readLoop] at h
    split at h
    · next hdone =>
      have heq : data.length = length := by omega
      rw [← Option.some.inj h]
      exact ⟨heq, heq ▸ hdata⟩
    · split at h
      · simp at h
      · next next hstep =>
        obtain ⟨hlen', hdata'⟩ := readStep_eq_some hlen hdata hstep
        exact ih hlen' hdata' h

/-- A successful read returns exactly the bytes of the file at the piece's place. -/
theorem read_eq_some {contents : Bytes} {io : List Transfer} {index length : Nat} {data : Bytes}
    (h : read contents io index length = some data) :
    data.length = length ∧ data = pread contents (pieceOffset index) length :=
  readLoop_eq_some (by simp) (by simp [pread]) h

/-- With enough bytes in the file a round of `read` goes on unless its call fails. -/
theorem readStep_of_complete {contents : Bytes} {index length : Nat} {io : Transfer} {data : Bytes}
    (hsize : pieceOffset index + length ≤ contents.length) (hmore : data.length < length) (hio : io ≠ .failed) :
    ∃ data', readStep contents index length data io = some data' := by
  cases io with
  | interrupted => exact ⟨data, rfl⟩
  | failed => exact absurd rfl hio
  | upTo n =>
    have hchunk := length_pread contents (pieceOffset index + data.length) (min (n + 1) (length - data.length))
    have hpos : ∀ offset size done : Nat, offset + length ≤ size → done < length →
        0 < min (min (n + 1) (length - done)) (size - (offset + done)) := by
      intro offset size done h₁ h₂
      omega
    have hne : (pread contents (pieceOffset index + data.length) (min (n + 1) (length - data.length))).isEmpty =
        false := by
      rw [List.isEmpty_eq_false_iff, ← List.length_pos_iff, hchunk]
      exact hpos _ _ _ hsize hmore
    refine ⟨data ++ pread contents (pieceOffset index + data.length) (min (n + 1) (length - data.length)), ?_⟩
    simp only [readStep, hne, Bool.false_eq_true, if_false]

/-- Enough bytes and no failing call are enough for a read to succeed. -/
theorem readLoop_of_complete {contents : Bytes} {index length : Nat} {io : List Transfer} {data : Bytes}
    (hsize : pieceOffset index + length ≤ contents.length) (hlen : data.length ≤ length)
    (hdata : data = pread contents (pieceOffset index) data.length) (hio : Transfer.failed ∉ io) :
    ∃ data', readLoop contents index length io data = some data' := by
  induction io generalizing data with
  | nil =>
    have hrest := length_pread contents (pieceOffset index + data.length) (length - data.length)
    simp only [readLoop]
    rw [if_neg (by omega)]
    exact ⟨_, rfl⟩
  | cons t more ih =>
    simp only [List.mem_cons, not_or] at hio
    simp only [readLoop]
    split
    · exact ⟨_, rfl⟩
    · next hmore =>
      obtain ⟨data', hstep⟩ := readStep_of_complete hsize (Nat.lt_of_not_le hmore) (Ne.symm hio.1)
      obtain ⟨hlen', hdata'⟩ := readStep_eq_some hlen hdata hstep
      rw [hstep]
      exact ih hlen' hdata' hio.2

theorem read_of_complete {contents : Bytes} {index length : Nat} {io : List Transfer}
    (hsize : pieceOffset index + length ≤ contents.length) (hio : Transfer.failed ∉ io) :
    read contents io index length = some (pread contents (pieceOffset index) length) := by
  obtain ⟨data, hdata⟩ := @readLoop_of_complete contents index length io [] hsize (Nat.zero_le _) (by simp [pread]) hio
  rw [read, hdata, (read_eq_some hdata).2]

/-- A round of `write` with the target's bytes for a piece brings the file closer to the target. -/
theorem writeStep_eq_some {target contents data contents' : Bytes} {index done done' : Nat} {io : Transfer}
    (hdata : data = pread target (pieceOffset index) data.length) (hdone : done < data.length)
    (hagree : AgreesOn target contents (pieceOffset index) (pieceOffset index + done))
    (h : writeStep contents index data done io = some (contents', done')) :
    Toward target contents contents' ∧ done' ≤ data.length ∧
      AgreesOn target contents' (pieceOffset index) (pieceOffset index + done') := by
  cases io with
  | interrupted =>
    obtain ⟨rfl, rfl⟩ : contents = contents' ∧ done = done' := by simpa [writeStep] using h
    exact ⟨Toward.refl _ _, Nat.le_of_lt hdone, hagree⟩
  | failed => simp [writeStep] at h
  | upTo n =>
    simp only [writeStep, Option.some.injEq, Prod.mk.injEq] at h
    obtain ⟨rfl, rfl⟩ := h
    generalize hchunk : (data.drop done).take (n + 1) = chunk
    have hlen : chunk.length = min (n + 1) (data.length - done) := by rw [← hchunk, List.length_take, List.length_drop]
    have hbytes : ∀ k < chunk.length, target[pieceOffset index + done + k]? = chunk[k]? := by
      intro k hk
      rw [← hchunk, List.getElem?_take, if_pos (by omega), List.getElem?_drop, hdata, pread, List.getElem?_take,
        if_pos (by omega), List.getElem?_drop, Nat.add_assoc]
    have hne : chunk ≠ [] := by
      rw [← List.length_pos_iff, hlen]
      omega
    have htoward := @toward_pwrite target contents chunk _ hne hbytes
    refine ⟨htoward, by omega, ?_⟩
    have hnew := @agreesOn_pwrite target contents chunk _ hbytes
    rw [Nat.add_assoc] at hnew
    exact (htoward.agreesOn hagree).join hnew

theorem getElem?_blocks (rounds : Nat) (contents : Bytes) (h : contents.length ≤ rounds) (i : Nat) :
    (blocks rounds contents)[i]? =
      if pieceOffset i < contents.length then some (pread contents (pieceOffset i) PIECE_SIZE) else none := by
  induction rounds generalizing contents i with
  | zero =>
    have hnil : contents = [] := List.length_eq_zero_iff.mp (by omega)
    simp [hnil, blocks]
  | succ rounds ih =>
    by_cases hnil : contents = []
    · simp [hnil, blocks]
    · have hpos := List.length_pos_iff.mpr hnil
      simp only [blocks, List.isEmpty_iff, hnil, if_false]
      cases i with
      | zero => simp [pieceOffset, hpos, pread]
      | succ i =>
        rw [List.getElem?_cons_succ, ih _ (by simp only [List.length_drop, PIECE_SIZE]; omega)]
        have hoff : pieceOffset (i + 1) = PIECE_SIZE + pieceOffset i := by simp only [pieceOffset]; ring
        have hlt : pieceOffset i < (contents.drop PIECE_SIZE).length ↔ pieceOffset (i + 1) < contents.length := by
          rw [hoff, List.length_drop]
          omega
        simp only [hlt, hoff, pread, List.drop_drop]

/-- How many blocks a file has. -/
theorem length_blocks (rounds : Nat) (contents : Bytes) (h : contents.length ≤ rounds) :
    (blocks rounds contents).length = Blocks.count PIECE_SIZE contents.length := by
  have hlt : ∀ i, i < (blocks rounds contents).length ↔ i < Blocks.count PIECE_SIZE contents.length := by
    intro i
    rw [← not_iff_not, Nat.not_lt, ← List.getElem?_eq_none_iff, getElem?_blocks rounds contents h,
      Blocks.lt_count (by decide), pieceOffset]
    simp
  have hle := hlt (blocks rounds contents).length
  have hge := hlt (Blocks.count PIECE_SIZE contents.length)
  omega

/-- A block of `hash` reads on, ends with the metadata of the whole file, or fails with its call or at the end of a file
that is too long. -/
theorem hashStep_cases (ssl : OpenSsl) {contents data : Bytes} {io : Transfer}
    (hdata : data = contents.take data.length) :
    (hashStep ssl contents data io = .failed ∧ (io = .failed ∨ 2 ^ 63 ≤ contents.length)) ∨
      (hashStep ssl contents data io = .done (hash ssl contents) ∧ contents.length < 2 ^ 63) ∨
      ∃ data', hashStep ssl contents data io = .more data' ∧ data' = contents.take data'.length := by
  cases io with
  | failed => exact Or.inl ⟨rfl, Or.inl rfl⟩
  | interrupted => exact Or.inr (Or.inr ⟨data, rfl, hdata⟩)
  | upTo n =>
    have hlen : data.length ≤ contents.length := by
      rw [hdata, List.length_take]
      omega
    have hblock := length_pread contents data.length PIECE_SIZE
    have hjoin : data ++ pread contents data.length PIECE_SIZE = contents.take (data.length + PIECE_SIZE) := by
      rw [List.take_add, ← hdata]
      rfl
    simp only [hashStep]
    split
    · exact Or.inl ⟨rfl, Or.inr (by omega)⟩
    · split
      · next hshort =>
        right; left
        rw [hjoin, List.take_of_length_le (by omega)]
        exact ⟨rfl, by omega⟩
      · next hfull =>
        right; right
        refine ⟨_, rfl, ?_⟩
        rw [hjoin, List.length_take, List.take_eq_take_iff]
        omega

section Hash

variable (ssl : OpenSsl) {contents : Bytes} {i : Nat}

@[simp] theorem hash_fullHash : (hash ssl contents).fullHash = sha1Hex ssl contents := rfl

theorem hash_size (h : contents.length < u64Bound) : (hash ssl contents).size.toNat = contents.length := by
  simp only [hash, UInt64.toNat_ofNat', u64Bound] at *
  omega

theorem isSha1Hex_sha1Hex (data : Bytes) : isSha1Hex (sha1Hex ssl data) = true := by
  simp only [isSha1Hex, isHex, sha1Hex, length_toHex, ssl.SHA1_length, Bool.and_eq_true, beq_iff_eq,
    List.all_eq_true]
  exact ⟨trivial, fun b hb => isXDigit_of_mem_toHex hb⟩

theorem pieceCount_hash :
    (hash ssl contents).pieceCount = Blocks.count PIECE_SIZE contents.length := by
  simp only [FileMetadata.pieceCount, hash, List.length_map]
  exact length_blocks _ _ (Nat.le_refl _)

/-- The metadata of a file is valid. -/
theorem valid_hash (h : contents.length < u64Bound) : (hash ssl contents).valid = true := by
  simp only [FileMetadata.valid, Bool.and_eq_true, beq_iff_eq, List.all_eq_true]
  refine ⟨⟨isSha1Hex_sha1Hex ssl _, ?_⟩, ?_⟩
  · rw [pieceCountForSize_toNat, hash_size ssl h]
    exact pieceCount_hash ssl
  · intro p hp
    obtain ⟨block, -, rfl⟩ := List.mem_map.mp hp
    exact isSha1Hex_sha1Hex ssl _

theorem pieceCount_hash_eq (h : contents.length < u64Bound) :
    (hash ssl contents).pieceCount = (pieceCountForSize (hash ssl contents).size).toNat :=
  FileMetadata.valid_count (valid_hash ssl h)

theorem lt_pieceCount_hash : i < (hash ssl contents).pieceCount ↔ pieceOffset i < contents.length := by
  rw [pieceCount_hash, pieceOffset]
  exact Blocks.lt_count (by decide)

theorem pieceLength_hash (h : contents.length < u64Bound) (hi : i < (hash ssl contents).pieceCount) :
    (hash ssl contents).pieceLength i = min PIECE_SIZE (contents.length - pieceOffset i) := by
  rw [FileMetadata.pieceLength_eq (pieceCount_hash_eq ssl h) hi, hash_size ssl h, pieceOffset]

/-- The hash of piece `i` is the hash of the bytes in its place. -/
theorem getElem?_pieceHashes (h : contents.length < u64Bound) (hi : i < (hash ssl contents).pieceCount) :
    (hash ssl contents).pieceHashes[i]? =
      some (sha1Hex ssl (pread contents (pieceOffset i) ((hash ssl contents).pieceLength i))) := by
  have hlt := (lt_pieceCount_hash ssl).mp hi
  have hcut : pread contents (pieceOffset i) PIECE_SIZE =
      pread contents (pieceOffset i) (min PIECE_SIZE (contents.length - pieceOffset i)) := by
    simp only [pread, List.take_eq_take_iff, List.length_drop]
    omega
  rw [pieceLength_hash ssl h hi, ← hcut]
  simp only [hash, List.getElem?_map, getElem?_blocks _ _ (Nat.le_refl _), hlt, if_true, Option.map_some]

end Hash

end PieceFile

namespace FileMetadata

/-- The bytes of piece `i` in a file. -/
def piece (m : FileMetadata) (file : Bytes) (i : Nat) : Bytes := pread file (PieceFile.pieceOffset i) (m.pieceLength i)

end FileMetadata

end TorrentAtlas
