import TorrentAtlas.FileMetadata

/-!
# The places of the pieces in a file

All sizes are 64-bit and wrap. With as many hashes as `pieceCountForSize` asks for,
neither the product nor the subtraction of `pieceLength` does, so the pieces are the
blocks of the file.
-/
namespace TorrentAtlas.FileMetadata

variable {m : FileMetadata} {i : Nat}

/-- For every 64-bit size: no product and no difference of `pieceLength` wraps; every piece has a byte, none has more
than `PIECE_SIZE`, all but the last have as many; and the pieces lie in order, without overlap, on exactly the bytes of
the file. -/
theorem pieces_partition (m : FileMetadata) (h : m.pieceCount = (pieceCountForSize m.size).toNat) :
    (∀ i < m.pieceCount, (UInt64.ofNat i).toNat = i ∧
      (UInt64.ofNat i * PIECE_SIZE64).toNat = i * PIECE_SIZE ∧ i * PIECE_SIZE < m.size.toNat ∧
      (m.size - UInt64.ofNat i * PIECE_SIZE64).toNat = m.size.toNat - i * PIECE_SIZE ∧
      1 ≤ m.pieceLength i ∧ m.pieceLength i ≤ PIECE_SIZE ∧ (i + 1 < m.pieceCount → m.pieceLength i = PIECE_SIZE)) ∧
    (∀ i j, i < j → j < m.pieceCount → i * PIECE_SIZE + m.pieceLength i ≤ j * PIECE_SIZE) ∧
    ∀ byte, byte < m.size.toNat ↔
      ∃ i < m.pieceCount, i * PIECE_SIZE ≤ byte ∧ byte < i * PIECE_SIZE + m.pieceLength i := by
  have hp : 0 < PIECE_SIZE := by decide
  refine ⟨fun i hi => ?_, fun i j hij hj => ?_, fun byte => lt_size_iff h⟩
  · have hlt := (lt_pieceCount h).mp hi
    have hsize := m.size.toNat_lt
    have hindex : (UInt64.ofNat i).toNat = i := by
      simp only [PIECE_SIZE] at hlt
      rw [UInt64.toNat_ofNat']
      omega
    refine ⟨hindex, offset_toNat h hi, hlt, rest_toNat h hi, ?_, pieceLength_le m i, fun hnext => ?_⟩
    · rw [pieceLength_eq_size h hi]
      exact Blocks.size_pos hp hlt
    · rw [pieceLength_eq_size h hi]
      exact Blocks.size_full ((lt_pieceCount h).mp hnext)
  · rw [pieceLength_eq_size h (hij.trans hj)]
    exact Blocks.end_le_start _ hij

/-- One byte more than a piece, which makes two. -/
theorem pieces_partition_two : (⟨524289, [], [[], []]⟩ : FileMetadata).pieceLength 0 = PIECE_SIZE ∧
    1 ≤ (⟨524289, [], [[], []]⟩ : FileMetadata).pieceLength 1 := by
  have h := (pieces_partition ⟨524289, [], [[], []]⟩ (by decide +kernel)).1
  exact ⟨(h 0 (by decide)).2.2.2.2.2.2 (by decide), (h 1 (by decide)).2.2.2.2.1⟩

end TorrentAtlas.FileMetadata
