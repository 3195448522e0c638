import TorrentAtlas.Download

/-!
# Spellings of a hash

`valid` takes hex digits of either case, `sha1Hex` writes lower-case ones, and every
comparison of hashes compares their texts. Two hash texts are equal exactly if they
denote the same digest and agree on which letters are capital.
-/
namespace TorrentAtlas

open Encoding Crypto

namespace Encoding

/-- A hex digit of the capital kind. -/
def isCapital (c : UInt8) : Bool := 65 ≤ c && c ≤ 70

/-- Which characters of a text are capital hex digits. -/
def capitals (text : Bytes) : List Bool := text.map isCapital

/-- The spelling that `toHex` uses. -/
def LowerCase (text : Bytes) : Prop := ∀ c ∈ text, isCapital c = false

/-- The digest a hash text stands for. -/
def Denotes (text digest : Bytes) : Prop := fromHex text = some digest

instance (text digest : Bytes) : Decidable (Denotes text digest) := inferInstanceAs (Decidable (_ = _))

/-- The hex digit with this value, capital or not. -/
def hexDigit (value : Nat) (capital : Bool) : UInt8 :=
  UInt8.ofNat (if value < 10 then 48 + value else if capital then 55 + value else 87 + value)

theorem hexDigit_hexValue : ∀ c : UInt8, (hexValue c).all (fun v => decide (v < 16) && hexDigit v (isCapital c) == c) =
    true := by decide +kernel

theorem isCapital_digits : ∀ b : UInt8, isCapital (digits.getD (b >>> 4).toNat 0) = false ∧
    isCapital (digits.getD (b &&& 15).toNat 0) = false := by decide +kernel

theorem hexValue_eq_some {c : UInt8} {v : Nat} (h : hexValue c = some v) : v < 16 ∧ c = hexDigit v (isCapital c) := by
  have hall := hexDigit_hexValue c
  simp only [h, Option.all_some, Bool.and_eq_true, decide_eq_true_eq, beq_iff_eq] at hall
  exact ⟨hall.1, hall.2.symm⟩

theorem fromHex_eq_nil {text : Bytes} (h : fromHex text = some []) : text = [] := by
  match text with
  | [] => rfl
  | [_] => simp [fromHex] at h
  | a :: b :: rest =>
    rw [fromHex] at h
    split at h
    · simp at h
    · simp at h

theorem fromHex_eq_cons {text bytes : Bytes} {byte : UInt8} (h : fromHex text = some (byte :: bytes)) :
    ∃ a b rest x y, text = a :: b :: rest ∧ hexValue a = some x ∧ hexValue b = some y ∧
      byte = UInt8.ofNat (16 * x + y) ∧ fromHex rest = some bytes := by
  match text with
  | [] => simp [fromHex] at h
  | [_] => simp [fromHex] at h
  | a :: b :: rest =>
    rw [fromHex] at h
    split at h
    · next x y hx hy =>
      obtain ⟨tail, htail, hcons⟩ := Option.map_eq_some_iff.mp h
      obtain ⟨rfl, rfl⟩ := List.cons.inj hcons
      exact ⟨a, b, rest, x, y, rfl, hx, hy, rfl, htail⟩
    · simp at h

/-- A text is its digest and its capitals. -/
theorem eq_of_fromHex {text text' bytes : Bytes} (h : fromHex text = some bytes) (h' : fromHex text' = some bytes)
    (hcase : capitals text = capitals text') : text = text' := by
  induction bytes generalizing text text' with
  | nil => rw [fromHex_eq_nil h, fromHex_eq_nil h']
  | cons byte bytes ih =>
    obtain ⟨a, b, rest, x, y, rfl, hx, hy, hbyte, hrest⟩ := fromHex_eq_cons h
    obtain ⟨a', b', rest', x', y', rfl, hx', hy', hbyte', hrest'⟩ := fromHex_eq_cons h'
    simp only [capitals, List.map_cons, List.cons.injEq] at hcase
    obtain ⟨hxlt, ha⟩ := hexValue_eq_some hx
    obtain ⟨hylt, hb⟩ := hexValue_eq_some hy
    obtain ⟨hxlt', ha'⟩ := hexValue_eq_some hx'
    obtain ⟨hylt', hb'⟩ := hexValue_eq_some hy'
    have hvalue := congrArg UInt8.toNat (hbyte.symm.trans hbyte')
    simp only [UInt8.toNat_ofNat'] at hvalue
    have hxx : x = x' := by omega
    have hyy : y = y' := by omega
    rw [ha, hb, ha', hb', hxx, hyy, hcase.1, hcase.2.1, ih hrest hrest' hcase.2.2]

theorem lowerCase_toHex (bytes : Bytes) : LowerCase (toHex bytes) := by
  induction bytes with
  | nil => simp [LowerCase]
  | cons b bs ih =>
    obtain ⟨hi, lo⟩ := isCapital_digits b
    intro c hc
    rw [toHex_cons, List.mem_cons, List.mem_cons] at hc
    rcases hc with rfl | rfl | hc
    · exact hi
    · exact lo
    · exact ih c hc

theorem length_of_fromHex {text bytes : Bytes} (h : fromHex text = some bytes) : text.length = 2 * bytes.length := by
  induction bytes generalizing text with
  | nil => simp [fromHex_eq_nil h]
  | cons byte bytes ih =>
    obtain ⟨a, b, rest, x, y, rfl, -, -, -, hrest⟩ := fromHex_eq_cons h
    simp only [List.length_cons, ih hrest]
    omega

theorem capitals_of_lowerCase {text : Bytes} (h : LowerCase text) :
    capitals text = List.replicate text.length false := by
  rw [capitals, List.map_eq_replicate_iff]
  exact h

/-- `toHex` writes a text exactly if the text denotes the bytes in lower case. -/
theorem toHex_eq_iff {text bytes : Bytes} : toHex bytes = text ↔ Denotes text bytes ∧ LowerCase text := by
  constructor
  · rintro rfl
    exact ⟨fromHex_toHex bytes, lowerCase_toHex bytes⟩
  · rintro ⟨hdenotes, hlower⟩
    refine eq_of_fromHex (fromHex_toHex bytes) hdenotes ?_
    rw [capitals_of_lowerCase hlower, capitals_of_lowerCase (lowerCase_toHex bytes), length_of_fromHex hdenotes,
      length_toHex]

/-- Hash texts that `valid` takes denote something. -/
theorem exists_denotes {text : Bytes} {n : Nat} (h : isHex text (2 * n) = true) : ∃ digest, Denotes text digest := by
  simp only [isHex, Bool.and_eq_true, beq_iff_eq, List.all_eq_true] at h
  obtain ⟨hlen, hall⟩ := h
  induction n generalizing text with
  | zero =>
    obtain rfl := List.length_eq_zero_iff.mp (show text.length = 0 by omega)
    exact ⟨[], rfl⟩
  | succ n ih =>
    obtain _ | ⟨a, _ | ⟨b, rest⟩⟩ := text
    · simp at hlen
    · simp only [List.length_cons, List.length_nil] at hlen
      omega
    · simp only [List.length_cons] at hlen
      obtain ⟨tail, htail⟩ := @ih rest (by omega)
        (fun c hc => hall c (List.mem_cons_of_mem _ (List.mem_cons_of_mem _ hc)))
      obtain ⟨x, hx⟩ := Option.isSome_iff_exists.mp (hall a List.mem_cons_self)
      obtain ⟨y, hy⟩ := Option.isSome_iff_exists.mp (hall b (List.mem_cons_of_mem _ List.mem_cons_self))
      have hrest : fromHex rest = some tail := htail
      exact ⟨UInt8.ofNat (16 * x + y) :: tail, by simp [Denotes, fromHex, hx, hy, hrest]⟩

end Encoding

namespace FileMetadata

/-- Two descriptions of the same bytes: equal sizes and digests. -/
def SameDigests (m other : FileMetadata) : Prop :=
  m.size = other.size ∧ fromHex m.fullHash = fromHex other.fullHash ∧
    m.pieceHashes.map fromHex = other.pieceHashes.map fromHex

/-- Their hashes have capital digits at the same places. -/
def SpelledAlike (m other : FileMetadata) : Prop :=
  capitals m.fullHash = capitals other.fullHash ∧ m.pieceHashes.map capitals = other.pieceHashes.map capitals

theorem eq_of_hash {text text' : Bytes} (h : isSha1Hex text = true) (hdigest : fromHex text = fromHex text')
    (hcase : capitals text = capitals text') : text = text' := by
  obtain ⟨digest, hdenotes⟩ := exists_denotes (show isHex text (2 * 20) = true from h)
  exact eq_of_fromHex hdenotes (hdigest.symm.trans hdenotes) hcase

theorem eq_of_hashes {hashes hashes' : List Bytes} (h : ∀ text ∈ hashes, isSha1Hex text = true)
    (hdigest : hashes.map fromHex = hashes'.map fromHex) (hcase : hashes.map capitals = hashes'.map capitals) :
    hashes = hashes' := by
  induction hashes generalizing hashes' with
  | nil => exact (List.map_eq_nil_iff.mp hdigest.symm).symm
  | cons text hashes ih =>
    cases hashes' with
    | nil => simp at hdigest
    | cons text' hashes' =>
      simp only [List.map_cons, List.cons.injEq] at hdigest hcase
      rw [eq_of_hash (h text List.mem_cons_self) hdigest.1 hcase.1,
        ih (fun t ht => h t (List.mem_cons_of_mem _ ht)) hdigest.2 hcase.2]

theorem sameContent_iff_digests {m : FileMetadata} (hm : m.valid = true) (other : FileMetadata) :
    m.sameContent other = true ↔ m.SameDigests other ∧ m.SpelledAlike other := by
  rw [sameContent_iff]
  constructor
  · rintro rfl
    exact ⟨⟨rfl, rfl, rfl⟩, rfl, rfl⟩
  · rintro ⟨⟨hsize, hfull, hpieces⟩, hfullCase, hpiecesCase⟩
    have hfullHash := eq_of_hash (valid_fullHash hm) hfull hfullCase
    have hpieceHashes := eq_of_hashes (fun text ht => valid_pieceHash hm ht) hpieces hpiecesCase
    cases m
    cases other
    simp only at hsize hfullHash hpieceHashes
    rw [hsize, hfullHash, hpieceHashes]

end FileMetadata

namespace Download

variable {ssl : OpenSsl}

theorem sha1Hex_eq_iff {data text : Bytes} : sha1Hex ssl data = text ↔ Denotes text (ssl.SHA1 data) ∧ LowerCase text :=
  toHex_eq_iff

theorem fetchPiece_accepts_iff (hash data : Bytes) :
    (PeerClient.fetchPiece ssl hash (.success, data)).1 = .success ↔ Denotes hash (ssl.SHA1 data) ∧ LowerCase hash := by
  rw [← sha1Hex_eq_iff, PeerClient.fetchPiece]
  split
  · next hne => simpa using hne
  · next heq => simpa using heq

/-- `prepare` keeps a piece whose data it has read whole exactly if the texts of the hashes agree. -/
theorem prepareStep_keeps_iff {d : Download} {file data : Bytes} {i : Nat} (input : Input)
    (hi : i < d.verified.length) (hnot : d.verified.getD i false = false)
    (hwhole : d.metadata.pieceLength i ≤ data.length) :
    (d.prepareStep ssl file true i data input).verified.getD i false = true ↔
      Denotes (d.pieceHash i) (ssl.SHA1 data) ∧ LowerCase (d.pieceHash i) := by
  unfold prepareStep
  rw [← sha1Hex_eq_iff, if_neg (by simpa using hi), if_pos hwhole]
  by_cases hhash : sha1Hex ssl data = d.pieceHash i
  · rw [if_pos hhash]
    simp [hhash, hi]
  · rw [if_neg hhash]
    simp only [hhash, iff_false, Bool.not_eq_true]
    exact hnot

/-- `complete` goes on to move a file it has hashed exactly if size and hash text agree. -/
theorem hashing_accepts_iff {d : Download} {view : View} {data contents : Bytes} {io : Transfer}
    (hphase : d.phase = .hashing data)
    (hhash : PieceFile.hashStep ssl view.input data io = .done (PieceFile.hash ssl contents)) :
    (d.mainStep ssl view (.io io)).1.phase = .moving ↔
      (PieceFile.hash ssl contents).size = d.metadata.size ∧
        Denotes d.metadata.fullHash (ssl.SHA1 contents) ∧ LowerCase d.metadata.fullHash := by
  rw [← sha1Hex_eq_iff]
  simp only [mainStep, hphase, hhash]
  split
  · next hbad =>
    simp only [Bool.or_eq_true, decide_eq_true_eq] at hbad
    simp only [finish, reduceCtorEq, false_iff, not_and]
    intro hsize hfull
    exact hbad.elim (fun h => h hsize) (fun h => h hfull)
  · next hgood =>
    simp only [Bool.or_eq_true, decide_eq_true_eq, not_or, ne_eq, not_not] at hgood
    exact ⟨fun _ => hgood, fun _ => rfl⟩

/-- Comparing texts decides what the digests decide exactly where the text is in lower case, or the digests differ
anyway; two descriptions of a file are compared by value exactly where they capitalise alike, or differ anyway. -/
theorem hashes_by_value_iff (ssl : OpenSsl) (m : FileMetadata) (hm : m.valid = true) :
    (∀ i < m.pieceCount, ∀ data : Bytes,
      (((PeerClient.fetchPiece ssl (m.pieceHashes.getD i []) (.success, data)).1 = .success ↔
          Denotes (m.pieceHashes.getD i []) (ssl.SHA1 data)) ↔
        LowerCase (m.pieceHashes.getD i []) ∨ ¬ Denotes (m.pieceHashes.getD i []) (ssl.SHA1 data)) ∧
      ∀ (d : Download) (file : Bytes) (input : Input), d.metadata = m → i < d.verified.length →
        d.verified.getD i false = false → m.pieceLength i ≤ data.length →
        (((d.prepareStep ssl file true i data input).verified.getD i false = true ↔
            Denotes (m.pieceHashes.getD i []) (ssl.SHA1 data)) ↔
          LowerCase (m.pieceHashes.getD i []) ∨ ¬ Denotes (m.pieceHashes.getD i []) (ssl.SHA1 data))) ∧
    (∀ (d : Download) (view : View) (data contents : Bytes) (io : Transfer), d.metadata = m → d.phase = .hashing data →
      PieceFile.hashStep ssl view.input data io = .done (PieceFile.hash ssl contents) →
      (((d.mainStep ssl view (.io io)).1.phase = .moving ↔
          (PieceFile.hash ssl contents).size = m.size ∧ Denotes m.fullHash (ssl.SHA1 contents)) ↔
        LowerCase m.fullHash ∨
          ¬ ((PieceFile.hash ssl contents).size = m.size ∧ Denotes m.fullHash (ssl.SHA1 contents)))) ∧
    ∀ other : FileMetadata, other.valid = true →
      ((m.sameContent other = true ↔ m.SameDigests other) ↔ (m.SameDigests other → m.SpelledAlike other)) := by
  refine ⟨fun i _ data => ⟨?_, ?_⟩, ?_, fun other _ => ?_⟩
  · rw [fetchPiece_accepts_iff]
    tauto
  · rintro d file input rfl hi hnot hwhole
    rw [prepareStep_keeps_iff input hi hnot hwhole, pieceHash]
    tauto
  · rintro d view data contents io rfl hphase hhash
    rw [hashing_accepts_iff hphase hhash]
    tauto
  · rw [FileMetadata.sameContent_iff_digests hm]
    tauto

section Example

def helloSha1 : Recording := { sha1 := [(lit "hello", ofHex 20 0xaaf4c61ddcc5e8a2dabede0f3b482cd9aea9434d)] }

def helloMetadata : FileMetadata :=
  ⟨5, lit "aaf4c61ddcc5e8a2dabede0f3b482cd9aea9434d", [lit "aaf4c61ddcc5e8a2dabede0f3b482cd9aea9434d"]⟩

/-- The same file, described in capitals. -/
def capitalMetadata : FileMetadata :=
  ⟨5, lit "AAF4C61DDCC5E8A2DABEDE0F3B482CD9AEA9434D", [lit "AAF4C61DDCC5E8A2DABEDE0F3B482CD9AEA9434D"]⟩

theorem hashes_by_value_hello : helloMetadata.valid = true ∧
    (PeerClient.fetchPiece helloSha1.replay (helloMetadata.pieceHashes.getD 0 []) (.success, lit "hello")).1 =
      .success := by
  have hvalid : helloMetadata.valid = true ∧
      Denotes (helloMetadata.pieceHashes.getD 0 []) (helloSha1.replay.SHA1 (lit "hello")) ∧
      capitals (helloMetadata.pieceHashes.getD 0 []) = List.replicate 40 false := by decide +kernel
  obtain ⟨hm, hdenotes, hcase⟩ := hvalid
  refine ⟨hm, ?_⟩
  obtain ⟨hfetch, -⟩ := (hashes_by_value_iff helloSha1.replay helloMetadata hm).1 0 (by decide) (lit "hello")
  exact (hfetch.mpr (Or.inl (List.map_eq_replicate_iff.mp hcase))).mpr hdenotes

/-- Metadata in capitals is valid, but no data passes for its piece, and the same file in lower case conflicts. -/
theorem capitals_refuse_the_file : capitalMetadata.valid = true ∧
    Denotes (capitalMetadata.pieceHashes.getD 0 []) (helloSha1.replay.SHA1 (lit "hello")) ∧
    (PeerClient.fetchPiece helloSha1.replay (capitalMetadata.pieceHashes.getD 0 []) (.success, lit "hello")).1 =
      .integrityFailure ∧
    capitalMetadata.SameDigests helloMetadata ∧ capitalMetadata.sameContent helloMetadata = false := by
  simp only [FileMetadata.SameDigests]
  decide +kernel

end Example

end Download

end TorrentAtlas
