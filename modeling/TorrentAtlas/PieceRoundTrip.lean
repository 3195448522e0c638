import TorrentAtlas.PieceFile
import TorrentAtlas.PieceIntervals

/-!
# Hashing, reading and writing a whole file (`client/storage/piece_file.cpp`)

`PieceFile::hash` reads a stream into one buffer, block after block; `read` and `write`
go to the place of a piece. The loop of `hash` is modelled with its buffer, its stream
and its accumulators and shown to compute `PieceFile.hash`; `write` is the loop over
`writeStep`.
-/
namespace TorrentAtlas

open Encoding Crypto

/-- A regular file. An `off_t` reaches its end. -/
structure File where
  contents : Bytes
  length_lt : contents.length < 2 ^ 63

namespace PieceFile

/-- An open `std::ifstream`; `good` is its state as the loop of `hash` tests it. -/
structure Ifstream where
  rest : Bytes
  good : Bool
  bad : Bool

def Ifstream.open (contents : Bytes) : Ifstream := ⟨contents, true, false⟩

/-- `std::istream::read` of `count` bytes with what `gcount` counts. A short read sets `eofbit` and `failbit`, and a
stream in that state gives nothing more. -/
def Ifstream.read (input : Ifstream) (count : Nat) : Ifstream × Bytes :=
  if input.good then
    (⟨input.rest.drop count, decide (count ≤ input.rest.length), input.bad⟩, input.rest.take count)
  else (input, [])

/-- The locals of `hash`; `whole` is what the running digest was fed. -/
structure Hashing where
  buffer : Bytes
  whole : Bytes
  size : UInt64
  pieceHashes : List Bytes

/-- The body of the loop, with the block that was read at the front of the buffer. -/
def Hashing.add (ssl : OpenSsl) (s : Hashing) (block : Bytes) : Hashing :=
  let buffer := block ++ s.buffer.drop block.length
  { buffer := buffer
    whole := s.whole ++ buffer.take block.length
    size := s.size + UInt64.ofNat block.length
    pieceHashes := s.pieceHashes ++ [sha1Hex ssl (buffer.take block.length)] }

/-- The loop of `hash`; `none` if it is not done after `rounds` rounds. -/
def hashRounds (ssl : OpenSsl) : Nat → Ifstream → Hashing → Option (Ifstream × Hashing)
  | 0, _, _ => none
  | rounds + 1, input, s =>
    let (input, block) := input.read s.buffer.length
    if input.good || 0 < block.length then hashRounds ssl rounds input (s.add ssl block) else some (input, s)

/-- `hash` on a regular file that can be opened. -/
def hashStream (ssl : OpenSsl) (contents : Bytes) : Option FileMetadata :=
  (hashRounds ssl (contents.length + 2) (Ifstream.open contents) ⟨List.replicate PIECE_SIZE 0, [], 0, []⟩).bind
    fun (input, s) => if input.bad then none else some ⟨s.size, sha1Hex ssl s.whole, s.pieceHashes⟩

/-- The file behind `openForWriting`: `old` is what it held (nothing, if it was created). `ftruncate` takes an
`off_t`, which a size from 2 ^ 63 on makes negative. -/
def openForWriting (old : Bytes) (size : UInt64) (keepContents : Bool) : Option Bytes :=
  let contents := if keepContents then old else []
  if 2 ^ 63 ≤ size.toNat then none else some (ftruncate contents size.toNat)

/-- The loop of `write` after `done` bytes, with the outcomes of its calls; calls after these move all that is left. -/
def writeLoop (index : Nat) (data : Bytes) : List Transfer → Bytes → Nat → Bool × Bytes
  | [], contents, done =>
    if data.length ≤ done then (true, contents)
    else (true, pwrite contents (pieceOffset index + done) (data.drop done))
  | io :: more, contents, done =>
    if data.length ≤ done then (true, contents)
    else
      match writeStep contents index data done io with
      | none => (false, contents)
      | some (contents, done) => writeLoop index data more contents done

/-- What `write` returns and what it leaves in the file. -/
def write (contents : Bytes) (io : List Transfer) (index : Nat) (data : Bytes) : Bool × Bytes :=
  writeLoop index data io contents 0

/-- One call of `write`: a piece number and the outcomes of its `pwrite` calls. -/
structure PieceWrite where
  index : Nat
  io : List Transfer
  deriving DecidableEq, Repr

/-- A run of writes of pieces of `source`, one after the other; false if one of them fails. -/
def writeAll (source : Bytes) (metadata : FileMetadata) : List PieceWrite → Bytes → Bool × Bytes
  | [], contents => (true, contents)
  | w :: writes, contents =>
    let (ok, contents) := write contents w.io w.index (metadata.piece source w.index)
    let (rest, contents) := writeAll source metadata writes contents
    (ok && rest, contents)

section Stream

variable (ssl : OpenSsl) {input : Ifstream} {s : Hashing}

@[simp] theorem Hashing.add_whole (s : Hashing) (block : Bytes) : (s.add ssl block).whole = s.whole ++ block := by
  simp [Hashing.add]

@[simp] theorem Hashing.add_size (s : Hashing) (block : Bytes) :
    (s.add ssl block).size = s.size + UInt64.ofNat block.length := rfl

@[simp] theorem Hashing.add_pieceHashes (s : Hashing) (block : Bytes) :
    (s.add ssl block).pieceHashes = s.pieceHashes ++ [sha1Hex ssl block] := by
  simp [Hashing.add]

/-- The buffer never changes its length. -/
theorem Hashing.length_add_buffer {s : Hashing} {block : Bytes} (h : block.length ≤ s.buffer.length) :
    (s.add ssl block).buffer.length = s.buffer.length := by
  simp only [Hashing.add, List.length_append, List.length_drop]
  omega

/-- A stream that ended gives nothing, so the loop is over. -/
theorem hashRounds_ended (rounds : Nat) (s : Hashing) (h : input.good = false) :
    hashRounds ssl (rounds + 1) input s = some (input, s) := by
  simp [hashRounds, Ifstream.read, h]

/-- The loop feeds the rest of the stream to the digest and hashes its blocks. -/
theorem hashRounds_eq (rounds : Nat) (hgood : input.good = true) (hbuffer : s.buffer.length = PIECE_SIZE)
    (hrounds : input.rest.length + 1 < rounds) :
    ∃ input' s', hashRounds ssl rounds input s = some (input', s') ∧ input'.bad = input.bad ∧
      s'.whole = s.whole ++ input.rest ∧ s'.size = s.size + UInt64.ofNat input.rest.length ∧
      s'.pieceHashes = s.pieceHashes ++ (blocks rounds input.rest).map (sha1Hex ssl) := by
  have hp : 0 < PIECE_SIZE := by decide
  induction rounds generalizing input s with
  | zero => omega
  | succ rounds ih =>
    have hread : input.read s.buffer.length = (⟨input.rest.drop PIECE_SIZE,
        decide (PIECE_SIZE ≤ input.rest.length), input.bad⟩, input.rest.take PIECE_SIZE) := by
      rw [Ifstream.read, if_pos hgood, hbuffer]
    by_cases hnil : input.rest = []
    · -- the end, after no block or after a full one
      refine ⟨⟨[], false, input.bad⟩, s, ?_, rfl, ?_, ?_, ?_⟩
      · simp [hashRounds, hread, hnil, Nat.not_le.mpr hp]
      · rw [hnil, List.append_nil]
      · simp [hnil]
      · simp [hnil, blocks]
    · have hpos := List.length_pos_iff.mpr hnil
      have hblock : (input.rest.take PIECE_SIZE).length ≤ s.buffer.length := by
        rw [List.length_take, hbuffer]
        omega
      have hblocks : blocks (rounds + 1) input.rest =
          input.rest.take PIECE_SIZE :: blocks rounds (input.rest.drop PIECE_SIZE) := by
        simp [blocks, hnil]
      have hbody : hashRounds ssl (rounds + 1) input s = hashRounds ssl rounds
          ⟨input.rest.drop PIECE_SIZE, decide (PIECE_SIZE ≤ input.rest.length), input.bad⟩
          (s.add ssl (input.rest.take PIECE_SIZE)) := by
        have hsome : 0 < (input.rest.take PIECE_SIZE).length := by
          rw [List.length_take]
          omega
        simp only [hashRounds, hread, hsome, decide_true, Bool.or_true, if_true]
      rw [hbody, hblocks]
      by_cases hfull : PIECE_SIZE ≤ input.rest.length
      · have hdrop : (input.rest.drop PIECE_SIZE).length = input.rest.length - PIECE_SIZE := List.length_drop
        obtain ⟨input', s', hrun, hbad, hwhole, hsize, hhashes⟩ := @ih
          ⟨input.rest.drop PIECE_SIZE, decide (PIECE_SIZE ≤ input.rest.length), input.bad⟩
          (s.add ssl (input.rest.take PIECE_SIZE)) (decide_eq_true hfull)
          ((Hashing.length_add_buffer ssl hblock).trans hbuffer) (by simp only [hdrop]; omega)
        refine ⟨input', s', hrun, hbad, ?_, ?_, ?_⟩
        · rw [hwhole, Hashing.add_whole, List.append_assoc, List.take_append_drop]
        · rw [hsize, Hashing.add_size, UInt64.add_assoc, ← UInt64.ofNat_add, ← List.length_append,
            List.take_append_drop]
        · rw [hhashes, Hashing.add_pieceHashes, List.map_cons, List.append_assoc, List.singleton_append]
      · -- a short block ends the stream
        have hall : input.rest.take PIECE_SIZE = input.rest := List.take_of_length_le (by omega)
        have hnone : input.rest.drop PIECE_SIZE = [] := List.drop_eq_nil_of_le (by omega)
        have hempty : blocks rounds [] = [] := by cases rounds <;> rfl
        obtain ⟨more, rfl⟩ : ∃ more, rounds = more + 1 := ⟨rounds - 1, by omega⟩
        rw [hall, hnone, hempty]
        refine ⟨_, _, hashRounds_ended ssl more _ (by simpa using hfull), rfl, ?_, ?_, ?_⟩ <;> simp

/-- The streaming loop computes the metadata of the contents. -/
theorem hashStream_eq (contents : Bytes) : hashStream ssl contents = some (hash ssl contents) := by
  obtain ⟨input', s', hrun, hbad, hwhole, hsize, hhashes⟩ := @hashRounds_eq ssl (Ifstream.open contents)
    ⟨List.replicate PIECE_SIZE 0, [], 0, []⟩ (contents.length + 2) rfl List.length_replicate
    (by simp only [Ifstream.open]; omega)
  have hblocks : blocks (contents.length + 2) contents = blocks contents.length contents := by
    refine List.ext_getElem? fun i => ?_
    rw [getElem?_blocks _ _ (by omega), getElem?_blocks _ _ (Nat.le_refl _)]
  simp only [Ifstream.open, List.nil_append, UInt64.zero_add, hblocks] at hwhole hsize hhashes hbad
  rw [hashStream, hrun, Option.bind_some]
  simp only [hbad, hwhole, hsize, hhashes, hash, Bool.false_eq_true, if_false]

end Stream

section Write

variable {target contents data : Bytes} {index : Nat}

/-- A write with the target's own bytes succeeds, brings the file closer to the target and fills the piece. -/
theorem writeLoop_spec {io : List Transfer} {done : Nat} (hdata : data = pread target (pieceOffset index) data.length)
    (hdone : done ≤ data.length) (hagree : AgreesOn target contents (pieceOffset index) (pieceOffset index + done))
    (hio : Transfer.failed ∉ io) :
    ∃ contents', writeLoop index data io contents done = (true, contents') ∧ Toward target contents contents' ∧
      AgreesOn target contents' (pieceOffset index) (pieceOffset index + data.length) := by
  induction io generalizing contents done with
  | nil =>
    by_cases hend : data.length ≤ done
    · have heq : done = data.length := by omega
      exact ⟨contents, by rw [writeLoop, if_pos hend], Toward.refl _ _, heq ▸ hagree⟩
    · -- the last call is one round that moves everything
      have hall : writeStep contents index data done (.upTo data.length) =
          some (pwrite contents (pieceOffset index + done) (data.drop done), data.length) := by
        have hrest : (data.drop done).take (data.length + 1) = data.drop done := by
          apply List.take_of_length_le
          rw [List.length_drop]
          omega
        simp only [writeStep, hrest, List.length_drop, Option.some.injEq, Prod.mk.injEq, true_and]
        omega
      obtain ⟨htoward, -, hnew⟩ := writeStep_eq_some hdata (Nat.lt_of_not_le hend) hagree hall
      exact ⟨_, by rw [writeLoop, if_neg hend], htoward, hnew⟩
  | cons t more ih =>
    rw [List.mem_cons, not_or] at hio
    by_cases hend : data.length ≤ done
    · have heq : done = data.length := by omega
      exact ⟨contents, by rw [writeLoop, if_pos hend], Toward.refl _ _, heq ▸ hagree⟩
    · obtain ⟨next, done', hstep⟩ : ∃ next done', writeStep contents index data done t = some (next, done') := by
        cases t with
        | upTo n => exact ⟨_, _, rfl⟩
        | interrupted => exact ⟨_, _, rfl⟩
        | failed => exact absurd rfl hio.1
      obtain ⟨htoward, hle, hnew⟩ := writeStep_eq_some hdata (Nat.lt_of_not_le hend) hagree hstep
      obtain ⟨contents', hrun, htoward', hfilled⟩ := ih hle hnew hio.2
      refine ⟨contents', ?_, htoward.trans htoward', hfilled⟩
      rw [writeLoop, if_neg hend, hstep]
      exact hrun

theorem write_spec {io : List Transfer} (hdata : data = pread target (pieceOffset index) data.length)
    (hio : Transfer.failed ∉ io) :
    ∃ contents', write contents io index data = (true, contents') ∧ Toward target contents contents' ∧
      AgreesOn target contents' (pieceOffset index) (pieceOffset index + data.length) :=
  writeLoop_spec hdata (Nat.zero_le _) (AgreesOn.empty (by omega)) hio

/-- The whole run of writes fills every piece it names and loses nothing. -/
theorem writeAll_spec {metadata : FileMetadata} {writes : List PieceWrite}
    (hpieces : ∀ w ∈ writes, pieceOffset w.index + metadata.pieceLength w.index ≤ target.length)
    (hio : ∀ w ∈ writes, Transfer.failed ∉ w.io) :
    ∃ contents', writeAll target metadata writes contents = (true, contents') ∧ Toward target contents contents' ∧
      ∀ w ∈ writes,
        AgreesOn target contents' (pieceOffset w.index) (pieceOffset w.index + metadata.pieceLength w.index) := by
  induction writes generalizing contents with
  | nil => exact ⟨contents, rfl, Toward.refl _ _, by simp⟩
  | cons w writes ih =>
    have hlen : (metadata.piece target w.index).length = metadata.pieceLength w.index := by
      have hfits := hpieces w List.mem_cons_self
      rw [FileMetadata.piece, length_pread]
      omega
    obtain ⟨contents₁, hwrite, htoward₁, hfilled⟩ := @write_spec target contents (metadata.piece target w.index)
      w.index w.io (by rw [hlen]; rfl) (hio w List.mem_cons_self)
    obtain ⟨contents₂, hrun, htoward₂, hrest⟩ := @ih contents₁
      (fun v hv => hpieces v (List.mem_cons_of_mem w hv)) (fun v hv => hio v (List.mem_cons_of_mem w hv))
    have hall : writeAll target metadata (w :: writes) contents = (true, contents₂) := by
      simp only [writeAll, hwrite, hrun, Bool.and_self]
    refine ⟨contents₂, hall, htoward₁.trans htoward₂, ?_⟩
    intro v hv
    rcases List.mem_cons.mp hv with rfl | hv
    · exact htoward₂.agreesOn (hlen ▸ hfilled)
    · exact hrest v hv

/-- A file set to the target's length agrees with it past its end, and with any more it kept. -/
theorem openForWriting_eq {size : UInt64} (old : Bytes) (keepContents : Bool) (hsize : size.toNat = target.length)
    (hlt : target.length < 2 ^ 63) :
    ∃ opened, openForWriting old size keepContents = some opened ∧ opened.length = target.length ∧
      ∀ j, target.length ≤ j → AgreesAt target opened j := by
  refine ⟨ftruncate (if keepContents then old else []) size.toNat, ?_, ?_, ?_⟩
  · simp only [openForWriting]
    rw [if_neg (by omega)]
  · rw [ftruncate, List.length_append, List.length_take, List.length_replicate]
    omega
  · intro j hj
    rw [AgreesAt, getElem?_ftruncate, if_neg (by omega), List.getElem?_eq_none hj]

end Write

section Whole

variable (ssl : OpenSsl) {contents : Bytes} {i : Nat}

theorem pieceLength_hash_eq_size (h : contents.length < u64Bound) (hi : i < (hash ssl contents).pieceCount) :
    (hash ssl contents).pieceLength i = Blocks.size PIECE_SIZE contents.length i := by
  rw [FileMetadata.pieceLength_eq_size (pieceCount_hash_eq ssl h) hi, hash_size ssl h]

/-- Every piece lies in the file. -/
theorem piece_end_le (h : contents.length < u64Bound) (hi : i < (hash ssl contents).pieceCount) :
    pieceOffset i + (hash ssl contents).pieceLength i ≤ contents.length := by
  have hend := FileMetadata.piece_end_le (pieceCount_hash_eq ssl h) hi
  rwa [hash_size ssl h, ← pieceOffset] at hend

/-- The pieces in order are the file. -/
theorem flatMap_piece (h : contents.length < u64Bound) :
    (List.range (hash ssl contents).pieceCount).flatMap ((hash ssl contents).piece contents) = contents := by
  have hp : 0 < PIECE_SIZE := by decide
  have hblocks := Blocks.flatMap_blocks hp contents
  rw [← pieceCount_hash ssl] at hblocks
  conv_rhs => rw [← hblocks]
  refine List.flatMap_congr fun i hi => ?_
  rw [FileMetadata.piece, pread, pieceLength_hash_eq_size ssl h (List.mem_range.mp hi), pieceOffset]

/-- Writes that name every piece leave the file, whatever was there behind its first bytes. -/
theorem writeAll_eq (h : contents.length < u64Bound) {opened : Bytes}
    (hpast : ∀ j, contents.length ≤ j → AgreesAt contents opened j) {writes : List PieceWrite}
    (hwrites : ∀ w ∈ writes, w.index < (hash ssl contents).pieceCount ∧ Transfer.failed ∉ w.io)
    (hcover : ∀ i < (hash ssl contents).pieceCount, ∃ w ∈ writes, w.index = i) :
    writeAll contents (hash ssl contents) writes opened = (true, contents) := by
  have hp : 0 < PIECE_SIZE := by decide
  obtain ⟨contents', hrun, htoward, hfilled⟩ := @writeAll_spec contents opened (hash ssl contents) writes
    (fun w hw => piece_end_le ssl h (hwrites w hw).1) (fun w hw => (hwrites w hw).2)
  rw [hrun, Prod.mk.injEq]
  refine ⟨rfl, eq_of_agreesAt fun j => ?_⟩
  by_cases hj : j < contents.length
  · -- the piece around `j` was written
    obtain ⟨i, hi, hge, hlast⟩ := (Blocks.lt_iff_mem_block hp).mp hj
    rw [← pieceOffset] at hi hge hlast
    have hi' := (lt_pieceCount_hash ssl).mpr hi
    obtain ⟨w, hw, rfl⟩ := hcover i hi'
    rw [← pieceLength_hash_eq_size ssl h hi'] at hlast
    exact hfilled w hw j hge hlast
  · exact htoward j (hpast j (Nat.le_of_not_lt hj))

end Whole

/-- For every file: hashing it as a stream gives valid metadata of its size; every piece reads back with its hash,
whatever the calls of `pread` return short of an error, and the pieces in order are the file; and in a file opened for
writing, whatever it held, writing all pieces leaves the file, in any order, with repetitions and short writes. -/
theorem pieces_round_trip (ssl : OpenSsl) (file : File) :
    ∃ metadata, hashStream ssl file.contents = some metadata ∧ metadata.valid = true ∧
      metadata.size.toNat = file.contents.length ∧
      (∀ i < metadata.pieceCount, (UInt64.ofNat i * PIECE_SIZE64).toNat = pieceOffset i ∧
        pieceOffset i + metadata.pieceLength i ≤ file.contents.length ∧
        ∀ io, Transfer.failed ∉ io → ∃ data, read file.contents io i (metadata.pieceLength i) = some data ∧
          data.length = metadata.pieceLength i ∧ metadata.pieceHashes[i]? = some (sha1Hex ssl data)) ∧
      (∀ io : Nat → List Transfer, (∀ i, Transfer.failed ∉ io i) →
        (List.range metadata.pieceCount).flatMap
          (fun i => (read file.contents (io i) i (metadata.pieceLength i)).getD []) = file.contents) ∧
      ∀ old keepContents, ∃ opened, openForWriting old metadata.size keepContents = some opened ∧
        opened.length = file.contents.length ∧
        ∀ writes : List PieceWrite, (∀ w ∈ writes, w.index < metadata.pieceCount ∧ Transfer.failed ∉ w.io) →
          (∀ i < metadata.pieceCount, ∃ w ∈ writes, w.index = i) →
          writeAll file.contents metadata writes opened = (true, file.contents) := by
  have hlt := file.length_lt
  have hbound : file.contents.length < u64Bound := by
    simp only [u64Bound]
    omega
  have hsize := hash_size ssl hbound
  have hread : ∀ i < (hash ssl file.contents).pieceCount, ∀ io, Transfer.failed ∉ io →
      read file.contents io i ((hash ssl file.contents).pieceLength i) =
        some ((hash ssl file.contents).piece file.contents i) :=
    fun i hi io hio => read_of_complete (piece_end_le ssl hbound hi) hio
  refine ⟨hash ssl file.contents, hashStream_eq ssl _, valid_hash ssl hbound, hsize, ?_, ?_, ?_⟩
  · intro i hi
    refine ⟨FileMetadata.offset_toNat (pieceCount_hash_eq ssl hbound) hi, piece_end_le ssl hbound hi, ?_⟩
    intro io hio
    exact ⟨_, hread i hi io hio, (read_eq_some (hread i hi io hio)).1, getElem?_pieceHashes ssl hbound hi⟩
  · intro io hio
    conv_rhs => rw [← flatMap_piece ssl hbound]
    refine List.flatMap_congr fun i hi => ?_
    rw [hread i (List.mem_range.mp hi) (io i) (hio i), Option.getD_some]
  · intro old keepContents
    obtain ⟨opened, hopen, hopened, hpast⟩ := openForWriting_eq old keepContents hsize hlt
    exact ⟨opened, hopen, hopened, fun writes hwrites hcover => writeAll_eq ssl hbound hpast hwrites hcover⟩

/-- A file of two pieces, the second of three bytes. -/
def twoPieceFile : File :=
  ⟨List.replicate PIECE_SIZE (chr 'a') ++ lit "end", by rw [List.length_append, List.length_replicate]; decide⟩

/-- The second piece is written byte by byte over a shorter file, then the first one, then the second one again. -/
theorem pieces_round_trip_two : ∃ opened metadata,
    hashStream (Recording.replay {}) twoPieceFile.contents = some metadata ∧ metadata.pieceCount = 2 ∧
      openForWriting (lit "start") metadata.size true = some opened ∧
      writeAll twoPieceFile.contents metadata
        [⟨1, [.upTo 0, .interrupted, .upTo 0]⟩, ⟨0, [.upTo 262143, .interrupted]⟩, ⟨1, []⟩] opened =
          (true, twoPieceFile.contents) := by
  obtain ⟨metadata, hhash, -, -, -, -, hwrite⟩ := pieces_round_trip (Recording.replay {}) twoPieceFile
  have hcount : metadata.pieceCount = 2 := by
    have hlength : twoPieceFile.contents.length = PIECE_SIZE + 3 := by
      simp only [twoPieceFile, List.length_append, List.length_replicate]
      decide
    rw [hashStream_eq] at hhash
    rw [← Option.some.inj hhash, pieceCount_hash, hlength]
    decide
  obtain ⟨opened, hopen, -, hall⟩ := hwrite (lit "start") true
  refine ⟨opened, metadata, hhash, hcount, hopen, hall _ ?_ ?_⟩
  · simp [hcount]
  · intro i hi
    have hcases : i = 0 ∨ i = 1 := by omega
    rcases hcases with rfl | rfl
    · exact ⟨⟨0, [.upTo 262143, .interrupted]⟩, by simp, rfl⟩
    · exact ⟨⟨1, []⟩, by simp, rfl⟩

end PieceFile

end TorrentAtlas
