import TorrentAtlas.Encoding
import TorrentAtlas.Library.Blocks

/-!
# File metadata (`common/file_metadata.{hpp,cpp}`)

Sizes are 64-bit and wrap as in the source; counts of list elements are `Nat`.
-/
namespace TorrentAtlas

open Encoding

/-- Every file is cut into pieces of this size; the last may be shorter. -/
def PIECE_SIZE : Nat := 512 * 1024

/-- `PIECE_SIZE` as an operand of 64-bit arithmetic. -/
def PIECE_SIZE64 : UInt64 := 524288

def pieceCountForSize (size : UInt64) : UInt64 :=
  size / PIECE_SIZE64 + (if size % PIECE_SIZE64 ≠ 0 then 1 else 0)

structure FileMetadata where
  size : UInt64
  fullHash : Bytes
  pieceHashes : List Bytes
  deriving DecidableEq, Repr

namespace FileMetadata

def pieceCount (m : FileMetadata) : Nat := m.pieceHashes.length

/-- The subtraction is the unguarded 64-bit one of the source. -/
def pieceLength (m : FileMetadata) (index : Nat) : Nat :=
  (min PIECE_SIZE64 (m.size - UInt64.ofNat index * PIECE_SIZE64)).toNat

def valid (m : FileMetadata) : Bool :=
  isSha1Hex m.fullHash && m.pieceHashes.length == (pieceCountForSize m.size).toNat &&
    m.pieceHashes.all isSha1Hex

def pieceHashList (m : FileMetadata) : Bytes :=
  if m.pieceHashes.isEmpty then lit "-" else join m.pieceHashes (chr ',')

def parsePieceHashList (text : Bytes) : List Bytes :=
  if text = lit "-" then [] else split text (chr ',')

def sameContent (m other : FileMetadata) : Bool :=
  m.size == other.size && m.fullHash == other.fullHash && m.pieceHashes == other.pieceHashes

theorem pieceLength_le (m : FileMetadata) (index : Nat) : m.pieceLength index ≤ PIECE_SIZE := by
  have hmin : min PIECE_SIZE64 (m.size - UInt64.ofNat index * PIECE_SIZE64) ≤ PIECE_SIZE64 := min_le_left _ _
  exact UInt64.le_iff_toNat_le.mp hmin

end FileMetadata

theorem pieceCountForSize_toNat (size : UInt64) :
    (pieceCountForSize size).toNat = (size.toNat + (PIECE_SIZE - 1)) / PIECE_SIZE := by
  have hlt := size.toNat_lt
  have hmod : size % PIECE_SIZE64 = 0 ↔ size.toNat % 524288 = 0 := by
    rw [← UInt64.toNat_inj, UInt64.toNat_mod]
    rfl
  change _ = (size.toNat + 524287) / 524288
  rw [pieceCountForSize, UInt64.toNat_add, UInt64.toNat_div, show PIECE_SIZE64.toNat = 524288 from rfl]
  by_cases hz : size % PIECE_SIZE64 = 0
  · have hn := hmod.mp hz
    simp only [hz, ne_eq, not_true_eq_false, if_false, UInt64.reduceToNat]
    omega
  · have hn : size.toNat % 524288 ≠ 0 := fun hc => hz (hmod.mpr hc)
    simp only [hz, ne_eq, not_false_eq_true, if_true, UInt64.reduceToNat]
    omega

namespace FileMetadata

section Geometry

variable {m : FileMetadata} {i : Nat}

theorem pieceCount_eq (h : m.pieceCount = (pieceCountForSize m.size).toNat) :
    m.pieceCount = Blocks.count PIECE_SIZE m.size.toNat := by
  rw [h, pieceCountForSize_toNat, Blocks.count]

/-- A piece exists exactly if its first byte does. -/
theorem lt_pieceCount (h : m.pieceCount = (pieceCountForSize m.size).toNat) :
    i < m.pieceCount ↔ i * PIECE_SIZE < m.size.toNat := by
  rw [pieceCount_eq h]
  exact Blocks.lt_count (by decide)

/-- Where a piece starts, as a 64-bit product. -/
theorem offset_toNat (h : m.pieceCount = (pieceCountForSize m.size).toNat) (hi : i < m.pieceCount) :
    (UInt64.ofNat i * PIECE_SIZE64).toNat = i * PIECE_SIZE := by
  have hlt := (lt_pieceCount h).mp hi
  have hsize := m.size.toNat_lt
  rw [UInt64.toNat_mul, UInt64.toNat_ofNat']
  change i % 18446744073709551616 * 524288 % 18446744073709551616 = i * 524288
  simp only [PIECE_SIZE] at hlt
  omega

/-- What is left of the file where a piece starts, as a 64-bit difference. -/
theorem rest_toNat (h : m.pieceCount = (pieceCountForSize m.size).toNat) (hi : i < m.pieceCount) :
    (m.size - UInt64.ofNat i * PIECE_SIZE64).toNat = m.size.toNat - i * PIECE_SIZE := by
  have hlt := (lt_pieceCount h).mp hi
  have hoffset := offset_toNat h hi
  rw [UInt64.toNat_sub_of_le _ _ (by rw [UInt64.le_iff_toNat_le]; omega), hoffset]

/-- No product and no subtraction in `pieceLength` wraps for a piece that exists. -/
theorem pieceLength_eq (h : m.pieceCount = (pieceCountForSize m.size).toNat) (hi : i < m.pieceCount) :
    m.pieceLength i = min PIECE_SIZE (m.size.toNat - i * PIECE_SIZE) := by
  have hmin : ∀ a b : UInt64, (min a b).toNat = min a.toNat b.toNat := by
    intro a b
    rw [min_def, Nat.min_def]
    simp only [UInt64.le_iff_toNat_le]
    split <;> rfl
  rw [pieceLength, hmin, rest_toNat h hi]
  rfl

theorem pieceLength_eq_size (h : m.pieceCount = (pieceCountForSize m.size).toNat) (hi : i < m.pieceCount) :
    m.pieceLength i = Blocks.size PIECE_SIZE m.size.toNat i := by
  rw [pieceLength_eq h hi, Blocks.size]

/-- Every piece ends within the file. -/
theorem piece_end_le (h : m.pieceCount = (pieceCountForSize m.size).toNat) (hi : i < m.pieceCount) :
    i * PIECE_SIZE + m.pieceLength i ≤ m.size.toNat := by
  rw [pieceLength_eq_size h hi]
  exact Blocks.end_le ((lt_pieceCount h).mp hi)

/-- A byte belongs to the file exactly if some piece holds it. -/
theorem lt_size_iff (h : m.pieceCount = (pieceCountForSize m.size).toNat) {byte : Nat} :
    byte < m.size.toNat ↔ ∃ i < m.pieceCount, i * PIECE_SIZE ≤ byte ∧ byte < i * PIECE_SIZE + m.pieceLength i := by
  rw [Blocks.lt_iff_mem_block (show 0 < PIECE_SIZE by decide)]
  refine exists_congr fun i => ?_
  rw [← lt_pieceCount h]
  refine and_congr_right fun hi => ?_
  rw [pieceLength_eq_size h hi]

end Geometry

theorem sameContent_iff (m other : FileMetadata) : m.sameContent other = true ↔ m = other := by
  cases m; cases other
  simp [sameContent, and_assoc]

theorem valid_fullHash {m : FileMetadata} (h : m.valid = true) : isSha1Hex m.fullHash = true := by
  simp only [valid, Bool.and_eq_true] at h
  exact h.1.1

theorem valid_pieceHash {m : FileMetadata} (h : m.valid = true) {p : Bytes} (hp : p ∈ m.pieceHashes) :
    isSha1Hex p = true := by
  simp only [valid, Bool.and_eq_true, List.all_eq_true] at h
  exact h.2 p hp

theorem valid_count {m : FileMetadata} (h : m.valid = true) :
    m.pieceHashes.length = (pieceCountForSize m.size).toNat := by
  simp only [valid, Bool.and_eq_true, beq_iff_eq] at h
  exact h.1.2

theorem sha1Hex_ne_nil {text : Bytes} (h : isSha1Hex text = true) : text ≠ [] := by
  rintro rfl
  simp [isSha1Hex, isHex] at h

theorem valid_fullHash_ne_nil {m : FileMetadata} (h : m.valid = true) : m.fullHash ≠ [] :=
  sha1Hex_ne_nil (valid_fullHash h)

/-- The hash list of valid metadata is made of hex digits, commas and `-`. -/
theorem mem_pieceHashList {m : FileMetadata} (h : m.valid = true) {c : UInt8} (hc : c ∈ m.pieceHashList) :
    isXDigit c = true ∨ c = chr ',' ∨ c = chr '-' := by
  unfold pieceHashList at hc
  split at hc
  · right; right
    simpa [lit, chr] using hc
  · rw [join_eq] at hc
    rcases Delimited.mem_intercalate hc with rfl | ⟨p, hp, hcp⟩
    · exact Or.inr (Or.inl rfl)
    · exact Or.inl (isXDigit_of_isHex (valid_pieceHash h hp) hcp)

theorem pieceHashList_ne_nil {m : FileMetadata} (h : m.valid = true) : m.pieceHashList ≠ [] := by
  unfold pieceHashList
  split
  · decide
  · next hne =>
    rw [join_eq]
    exact Delimited.intercalate_ne_nil _ (by simpa using hne) (fun p hp => sha1Hex_ne_nil (valid_pieceHash h hp))

/-- The comma list of valid metadata reads back as the same hashes. -/
theorem parsePieceHashList_pieceHashList {m : FileMetadata} (h : m.valid = true) :
    parsePieceHashList m.pieceHashList = m.pieceHashes := by
  unfold pieceHashList
  by_cases he : m.pieceHashes = []
  · simp [he, parsePieceHashList]
  · have hfree : ∀ p ∈ m.pieceHashes, chr ',' ∉ p := by
      intro p hp hm
      have := isXDigit_of_isHex (valid_pieceHash h hp) hm
      exact absurd this (by decide)
    have hdash : join m.pieceHashes (chr ',') ≠ lit "-" := by
      rw [join_eq]
      intro hj
      have hs := List.splitOn_intercalate (chr ',') hfree he
      rw [hj, show (lit "-").splitOn (chr ',') = [lit "-"] by decide] at hs
      have hx := valid_pieceHash h (p := lit "-") (by simp [← hs])
      exact absurd hx (by decide)
    rw [if_neg (by simpa using he), parsePieceHashList, if_neg hdash, split_eq, join_eq,
      List.splitOn_intercalate _ hfree he]

end FileMetadata

end TorrentAtlas
