import TorrentAtlas.Encoding

/-!
# `split` and `join` undo each other (`common/encoding.cpp`)

The loop of `split` runs on `size_t` positions, where `npos` stands for no hit and
`end - begin` wraps on its last round. On a string, which is shorter than `npos`, it
ends after one round for each part and has pushed the parts that `split` lists.
-/
namespace TorrentAtlas.Encoding

/-- `std::string::npos`, the largest `size_t`. -/
def npos : UInt64 := 18446744073709551615

/-- `text.find(delimiter, begin)` on positions. -/
def findFrom (text : Bytes) (delimiter : UInt8) (begin : UInt64) : UInt64 :=
  match find text delimiter begin.toNat with
  | none => npos
  | some stop => UInt64.ofNat stop

/-- `text.substr(begin, count)`; `none` is `std::out_of_range`. -/
def substr (text : Bytes) (begin count : UInt64) : Option Bytes :=
  if begin.toNat > text.length then none else some ((text.drop begin.toNat).take count.toNat)

/-- The loop of `split` from `begin` on, with the parts pushed so far; `none` if a call throws or the loop still runs. -/
def splitRounds (text : Bytes) (delimiter : UInt8) : Nat → List Bytes → UInt64 → Option (List Bytes)
  | 0, _, _ => none
  | rounds + 1, parts, begin =>
    let stop := findFrom text delimiter begin
    match substr text begin (stop - begin) with
    | none => none
    | some part =>
      if stop = npos then some (parts ++ [part])
      else splitRounds text delimiter rounds (parts ++ [part]) (stop + 1)

/-- The last round: `npos - begin` covers all that is left. -/
theorem substr_npos {text : Bytes} {begin : UInt64} (hsize : text.length < npos.toNat)
    (hb : begin.toNat ≤ text.length) : substr text begin (npos - begin) = some (text.drop begin.toNat) := by
  have hn : npos.toNat = 18446744073709551615 := rfl
  have hsub : (npos - begin).toNat = npos.toNat - begin.toNat :=
    UInt64.toNat_sub_of_le _ _ (by rw [UInt64.le_iff_toNat_le]; omega)
  rw [substr, if_neg (by omega), hsub, List.take_of_length_le (by rw [List.length_drop]; omega)]

theorem splitRounds_eq {text : Bytes} {d : UInt8} (hsize : text.length < npos.toNat) {rounds : Nat}
    (parts : List Bytes) (begin : UInt64) (h : text.length < begin.toNat + rounds) (hb : begin.toNat ≤ text.length) :
    splitRounds text d rounds parts begin = some (parts ++ splitLoop text d rounds begin.toNat) := by
  have hn : npos.toNat = 18446744073709551615 := rfl
  induction rounds generalizing parts begin with
  | zero => omega
  | succ rounds ih =>
    cases hf : find text d begin.toNat with
    | none => simp [splitRounds, splitLoop, findFrom, hf, substr_npos hsize hb]
    | some stop =>
      obtain ⟨hle, hlt, -, -⟩ := find_eq_some hf
      have hstop : (UInt64.ofNat stop).toNat = stop := by
        rw [UInt64.toNat_ofNat']
        omega
      have hnext : (UInt64.ofNat stop + 1).toNat = stop + 1 := by
        rw [UInt64.toNat_add, hstop]
        change (stop + 1) % 18446744073709551616 = stop + 1
        omega
      have hcount : (UInt64.ofNat stop - begin).toNat = stop - begin.toNat := by
        rw [UInt64.toNat_sub_of_le _ _ (by rw [UInt64.le_iff_toNat_le]; omega), hstop]
      have hmore : UInt64.ofNat stop ≠ npos := by
        intro he
        have := congrArg UInt64.toNat he
        omega
      simp only [splitRounds, splitLoop, findFrom, hf, substr, hcount]
      rw [if_neg (by omega)]
      dsimp only
      rw [if_neg hmore, ih _ _ (by omega) (by omega), hnext]
      simp

/-- On every string the loop of `split` ends with its parts; joining them gives the text back, there is at least one and
none contains the delimiter; and parts come back from the joined text exactly if they are such parts. -/
theorem split_join_inverse :
    (∀ (text : Bytes) (d : UInt8) (rounds : Nat), text.length < npos.toNat → text.length < rounds →
      splitRounds text d rounds [] 0 = some (split text d)) ∧
    (∀ (text : Bytes) (d : UInt8), join (split text d) d = text ∧ split text d ≠ [] ∧
      ∀ part ∈ split text d, d ∉ part) ∧
    ∀ (parts : List Bytes) (d : UInt8), split (join parts d) d = parts ↔ parts ≠ [] ∧ ∀ part ∈ parts, d ∉ part := by
  refine ⟨fun text d rounds hsize hrounds => ?_, fun text d => ⟨?_, ?_, fun part hpart => ?_⟩, fun parts d => ?_⟩
  · rw [splitRounds_eq hsize [] 0 (by simpa using hrounds) (by simp), split_eq]
    simpa using splitLoop_eq text d rounds 0 (by omega) (by omega)
  · rw [join_eq, split_eq, List.intercalate_splitOn]
  · rw [split_eq]
    exact List.splitOn_ne_nil d text
  · rw [split_eq] at hpart
    exact Delimited.not_mem_of_mem_splitOn hpart
  · rw [split_eq, join_eq, Delimited.splitOn_intercalate_iff]

/-- The example of `encoding.hpp`: empty fields are kept. -/
theorem split_join_empty_field : splitRounds (lit "a||b") (chr '|') 5 [] 0 = some [lit "a", [], lit "b"] := by
  rw [split_join_inverse.1 (lit "a||b") (chr '|') 5 (by decide) (by decide)]
  decide

end TorrentAtlas.Encoding
