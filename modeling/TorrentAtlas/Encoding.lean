import TorrentAtlas.Bytes
import Mathlib.Data.FinEnum
import Mathlib.Tactic.IntervalCases

/-!
# Text helpers (`common/encoding.cpp`)

Hex, strict decimal parsing, and splitting and joining on one delimiter.
A C++ function that reports success and fills an output argument becomes an
`Option`; the sources leave the output untouched on failure.
-/
namespace TorrentAtlas.Encoding

/-- Largest value of a `u64`, plus one. -/
def u64Bound : Nat := 18446744073709551616

/-- The digit table of `toHex`. -/
def digits : Bytes := lit "0123456789abcdef"

def toHex (bytes : Bytes) : Bytes :=
  bytes.flatMap (fun (byte : UInt8) => [digits.getD (byte >>> 4).toNat 0, digits.getD (byte &&& 15).toNat 0])

/-- The value `std::from_chars` gives one hex digit; `none` when `std::isxdigit` fails. -/
def hexValue (c : UInt8) : Option Nat :=
  if 48 ≤ c && c ≤ 57 then some (c.toNat - 48)
  else if 97 ≤ c && c ≤ 102 then some (c.toNat - 87)
  else if 65 ≤ c && c ≤ 70 then some (c.toNat - 55)
  else none

/-- `std::isxdigit`. -/
def isXDigit (c : UInt8) : Bool := (hexValue c).isSome

/-- Two digits a round; an odd length leaves a lone digit at the end and fails. -/
def fromHex : Bytes → Option Bytes
  | [] => some []
  | [_] => none
  | a :: b :: rest =>
    match hexValue a, hexValue b with
    | some x, some y => (fromHex rest).map (UInt8.ofNat (16 * x + y) :: ·)
    | _, _ => none

def isHex (text : Bytes) (length : Nat) : Bool := text.length == length && text.all isXDigit

def isSha1Hex (text : Bytes) : Bool := isHex text 40

/-- `std::from_chars` must consume the whole of a nonempty text and not overflow. -/
def parseU64 (text : Bytes) : Option UInt64 :=
  if text.isEmpty || !text.all isDigit then none
  else if decimalValue text < u64Bound then some (UInt64.ofNat (decimalValue text))
  else none

/-- `text.find(delimiter, begin)`; `none` is `npos`. -/
def find (text : Bytes) (delimiter : UInt8) (begin : Nat) : Option Nat :=
  ((text.drop begin).findIdx? (· == delimiter)).map (begin + ·)

/-- The rounds of `split`'s loop, from `begin` on. Every round but the last
moves `begin` past a delimiter, so `text.length + 1` rounds are enough. -/
def splitLoop (text : Bytes) (delimiter : UInt8) : Nat → Nat → List Bytes
  | 0, _ => []
  | rounds + 1, begin =>
    match find text delimiter begin with
    | none => [text.drop begin]
    | some stop => (text.drop begin).take (stop - begin) :: splitLoop text delimiter rounds (stop + 1)

def split (text : Bytes) (delimiter : UInt8) : List Bytes :=
  splitLoop text delimiter (text.length + 1) 0

/-- The delimiter is pushed before every part but the first. -/
def join (parts : List Bytes) (delimiter : UInt8) : Bytes :=
  match parts with
  | [] => []
  | part :: rest => rest.foldl (fun joined p => joined ++ delimiter :: p) part

theorem find_eq_none {text : Bytes} {d : UInt8} {begin : Nat} :
    find text d begin = none ↔ d ∉ text.drop begin := by
  simp only [find, Option.map_eq_none_iff, List.findIdx?_eq_none_iff, beq_eq_false_iff_ne]
  exact ⟨fun h hm => h d hm rfl, fun h x hx he => h (he ▸ hx)⟩

/-- A hit cuts the rest of the text at its first delimiter. -/
theorem find_eq_some {text : Bytes} {d : UInt8} {begin stop : Nat} (h : find text d begin = some stop) :
    begin ≤ stop ∧ stop < text.length ∧ d ∉ (text.drop begin).take (stop - begin) ∧
      text.drop begin = (text.drop begin).take (stop - begin) ++ d :: text.drop (stop + 1) := by
  obtain ⟨i, hf, rfl⟩ := Option.map_eq_some_iff.mp h
  obtain ⟨hi, hat, hbefore⟩ := List.findIdx?_eq_some_iff_getElem.mp hf
  have hlen : i < text.length - begin := by simpa using hi
  rw [show begin + i - begin = i by omega]
  refine ⟨by omega, by omega, ?_, ?_⟩
  · intro hm
    obtain ⟨j, hj, he⟩ := List.getElem_of_mem hm
    have hji : j < i := by simp at hj; omega
    have := hbefore j hji
    rw [List.getElem_take] at he
    simp [he] at this
  · have hget : (text.drop begin)[i] = d := by simpa using hat
    conv_lhs => rw [← List.take_append_drop i (text.drop begin), List.drop_eq_getElem_cons hi]
    rw [hget, List.drop_drop, Nat.add_assoc]

theorem find_append {a : Bytes} {d : UInt8} (b : Bytes) (h : d ∉ a) : find (a ++ d :: b) d 0 = some a.length := by
  have hf : (a ++ d :: b).findIdx? (· == d) = some a.length := by
    rw [List.findIdx?_eq_some_iff_getElem]
    refine ⟨by simp, by simp, ?_⟩
    intro j hj
    rw [List.getElem_append_left hj]
    simp only [beq_iff_eq]
    intro he
    exact h (he ▸ List.getElem_mem hj)
  simp [find, hf]

theorem splitLoop_eq (text : Bytes) (d : UInt8) (rounds begin : Nat)
    (h : text.length < begin + rounds) (hb : begin ≤ text.length) :
    splitLoop text d rounds begin = (text.drop begin).splitOn d := by
  induction rounds generalizing begin with
  | zero => omega
  | succ rounds ih =>
    cases hf : find text d begin with
    | none => simp [splitLoop, hf, List.splitOn_eq_singleton (find_eq_none.mp hf)]
    | some stop =>
      obtain ⟨hle, hlt, hfree, hcut⟩ := find_eq_some hf
      simp only [splitLoop, hf]
      rw [ih (stop + 1) (by omega) (by omega)]
      conv_rhs => rw [hcut]
      rw [Delimited.splitOn_cons_field _ hfree]

/-- The loop is the standard splitting of a list at every delimiter. -/
theorem split_eq (text : Bytes) (d : UInt8) : split text d = text.splitOn d := by
  simpa [split] using splitLoop_eq text d (text.length + 1) 0 (by omega) (by omega)

theorem join_eq (parts : List Bytes) (d : UInt8) : join parts d = [d].intercalate parts := by
  cases parts with
  | nil => rfl
  | cons p ps =>
    simp only [join]
    induction ps generalizing p with
    | nil => simp
    | cons q qs ih =>
      rw [List.foldl_cons, ih (p ++ d :: q)]
      cases qs <;> simp [List.intercalate_cons_cons]

/-- The glued parts and one separator between each two of them. -/
theorem length_join (parts : List Bytes) (d : UInt8) :
    (join parts d).length = (parts.map List.length).sum + (parts.length - 1) := by
  rw [join_eq]
  induction parts with
  | nil => rfl
  | cons part parts ih =>
    cases parts with
    | nil => simp
    | cons next rest =>
      rw [List.intercalate_cons_cons, List.length_append, List.length_append, ih]
      simp only [List.map_cons, List.sum_cons, List.length_cons, List.length_nil]
      omega

/-- Both digits of every byte read back as its halves. -/
theorem hexValue_digits : ∀ b : UInt8,
    hexValue (digits.getD (b >>> 4).toNat 0) = some (b.toNat / 16) ∧
      hexValue (digits.getD (b &&& 15).toNat 0) = some (b.toNat % 16) := by decide +kernel

@[simp] theorem toHex_nil : toHex [] = [] := rfl

theorem toHex_cons (b : UInt8) (bs : Bytes) :
    toHex (b :: bs) = digits.getD (b >>> 4).toNat 0 :: digits.getD (b &&& 15).toNat 0 :: toHex bs := rfl

@[simp] theorem fromHex_toHex (bytes : Bytes) : fromHex (toHex bytes) = some bytes := by
  induction bytes with
  | nil => rfl
  | cons b bs ih =>
    obtain ⟨hi, lo⟩ := hexValue_digits b
    rw [toHex_cons, fromHex]
    simp only [hi, lo, ih, Option.map_some]
    rw [show 16 * (b.toNat / 16) + b.toNat % 16 = b.toNat by omega, UInt8.ofNat_toNat]

theorem toHex_injective {a b : Bytes} (h : toHex a = toHex b) : a = b := by
  have ha := fromHex_toHex a
  rw [h, fromHex_toHex] at ha
  exact (Option.some.inj ha).symm

@[simp] theorem length_toHex (bytes : Bytes) : (toHex bytes).length = 2 * bytes.length := by
  induction bytes with
  | nil => rfl
  | cons b bs ih => simp only [toHex_cons, List.length_cons, ih]; omega

@[simp] theorem toHex_eq_nil (bytes : Bytes) : toHex bytes = [] ↔ bytes = [] := by
  cases bytes <;> simp [toHex_cons]

theorem isXDigit_of_mem_toHex {c : UInt8} {bytes : Bytes} (h : c ∈ toHex bytes) : isXDigit c = true := by
  induction bytes with
  | nil => simp at h
  | cons b bs ih =>
    obtain ⟨hi, lo⟩ := hexValue_digits b
    rw [toHex_cons, List.mem_cons, List.mem_cons] at h
    rcases h with rfl | rfl | h
    · rw [isXDigit, hi]; rfl
    · rw [isXDigit, lo]; rfl
    · exact ih h

/-- A character that is no hex digit never occurs in hex text. -/
theorem not_mem_toHex {d : UInt8} (hd : isXDigit d = false) (bytes : Bytes) : d ∉ toHex bytes := by
  intro h
  simp [isXDigit_of_mem_toHex h] at hd

theorem isXDigit_of_isHex {text : Bytes} {n : Nat} (h : isHex text n = true) {c : UInt8} (hc : c ∈ text) :
    isXDigit c = true := by
  simp only [isHex, Bool.and_eq_true, List.all_eq_true] at h
  exact h.2 c hc

/-- A text is a `u64` exactly if it is made of digits, at least one, whose value is below 2 ^ 64. -/
theorem parseU64_eq_some {text : Bytes} {v : UInt64} :
    parseU64 text = some v ↔ text ≠ [] ∧ (∀ b ∈ text, isDigit b = true) ∧ decimalValue text = v.toNat := by
  have hlt := v.toNat_lt
  constructor
  · intro h
    unfold parseU64 at h
    split at h
    · simp at h
    · next hdigits =>
      simp only [Bool.or_eq_true, List.isEmpty_iff, Bool.not_eq_true', not_or, Bool.not_eq_false,
        List.all_eq_true] at hdigits
      split at h
      · next hvalue =>
        refine ⟨hdigits.1, hdigits.2, ?_⟩
        rw [← Option.some.inj h, UInt64.toNat_ofNat']
        simp only [u64Bound] at hvalue
        omega
      · simp at h
  · rintro ⟨hne, hdigits, hvalue⟩
    have hall : text.all isDigit = true := List.all_eq_true.mpr hdigits
    rw [parseU64, if_neg (by simp [hne, hall]), hvalue, if_pos (by simpa [u64Bound] using hlt), UInt64.ofNat_toNat]

theorem decimalValue_append (text : Bytes) (c : UInt8) :
    decimalValue (text ++ [c]) = 10 * decimalValue text + (c.toNat - 48) := by
  simp [decimalValue]

theorem decimalValue_digits (ds : List Nat) (h : ∀ d ∈ ds, d < 10) :
    decimalValue (ds.reverse.map (fun d => UInt8.ofNat (48 + d))) = Nat.ofDigits 10 ds := by
  induction ds with
  | nil => rfl
  | cons d ds ih =>
    have hd : (UInt8.ofNat (48 + d)).toNat = 48 + d := by
      have := h d List.mem_cons_self
      simp only [UInt8.toNat_ofNat']
      omega
    rw [List.reverse_cons, List.map_append, List.map_singleton, decimalValue_append,
      ih fun e he => h e (List.mem_cons_of_mem _ he), hd, Nat.ofDigits_cons]
    omega

@[simp] theorem decimalValue_decimal (n : Nat) : decimalValue (decimal n) = n := by
  by_cases hn : n = 0
  · subst hn; rfl
  · rw [decimal, if_neg hn, decimalValue_digits _ fun d hd => Nat.digits_lt_base (by omega) hd,
      Nat.ofDigits_digits]

/-- A text of digits without a leading zero is the printed form of its value. -/
theorem decimal_decimalValue {text : Bytes} (hne : text ≠ []) (hdigits : ∀ b ∈ text, isDigit b = true)
    (hlead : text.length ≤ 1 ∨ text.head? ≠ some 48) : decimal (decimalValue text) = text := by
  -- the digits as numbers, least significant first
  let ds := (text.map fun b => b.toNat - 48).reverse
  have hrange : ∀ b ∈ text, 48 ≤ b.toNat ∧ b.toNat ≤ 57 := by
    intro b hb
    have := hdigits b hb
    simpa [isDigit, UInt8.le_iff_toNat_le] using this
  have hsmall : ∀ d ∈ ds, d < 10 := by
    intro d hd
    obtain ⟨b, hb, rfl⟩ := List.mem_map.mp (List.mem_reverse.mp hd)
    have := hrange b hb
    omega
  have htext : ds.reverse.map (fun d => UInt8.ofNat (48 + d)) = text := by
    simp only [ds, List.reverse_reverse, List.map_map]
    conv_rhs => rw [← List.map_id text]
    apply List.map_congr_left
    intro b hb
    have := hrange b hb
    simp only [Function.comp, id, show 48 + (b.toNat - 48) = b.toNat by omega, UInt8.ofNat_toNat]
  have hvalue : decimalValue text = Nat.ofDigits 10 ds := by
    rw [← decimalValue_digits ds hsmall, htext]
  obtain ⟨first, rest, rfl⟩ := List.exists_cons_of_ne_nil hne
  by_cases hzero : first = 48
  · have hrest : rest = [] := by simpa [hzero] using hlead
    subst hzero hrest
    decide
  · have hfirst : first.toNat - 48 ≠ 0 := by
      have := hrange first List.mem_cons_self
      have hne48 : first.toNat ≠ 48 := fun h => hzero (UInt8.toNat_inj.mp h)
      omega
    have hdsne : ds ≠ [] := by simp [ds]
    have hback : Nat.digits 10 (Nat.ofDigits 10 ds) = ds := by
      apply Nat.digits_ofDigits 10 (by omega) ds hsmall
      intro _
      simpa [ds] using hfirst
    have hpos : Nat.ofDigits 10 ds ≠ 0 := by
      intro h0
      rw [h0, Nat.digits_zero] at hback
      exact hdsne hback.symm
    rw [hvalue, decimal, if_neg hpos, hback, htext]

theorem decimal_injective {m n : Nat} (h : decimal m = decimal n) : m = n := by
  rw [← decimalValue_decimal m, h, decimalValue_decimal]

theorem isDigit_of_mem_decimal {n : Nat} {c : UInt8} (h : c ∈ decimal n) : isDigit c = true := by
  by_cases hn : n = 0
  · subst hn
    have : c = 48 := by simpa [decimal] using h
    subst this
    decide
  · rw [decimal, if_neg hn, List.mem_map] at h
    obtain ⟨d, hd, rfl⟩ := h
    have hlt : d < 10 := Nat.digits_lt_base (by omega) (List.mem_reverse.mp hd)
    interval_cases d <;> decide

@[simp] theorem decimal_ne_nil (n : Nat) : decimal n ≠ [] := by
  by_cases hn : n = 0
  · simp [decimal, hn]
  · simp [decimal, hn, Nat.digits_ne_nil_iff_ne_zero]

theorem length_decimal_le {n k : Nat} (hk : 0 < k) (h : n < 10 ^ k) : (decimal n).length ≤ k := by
  by_cases hn : n = 0
  · simp only [decimal, hn, if_true, List.length_singleton]
    omega
  · rw [decimal, if_neg hn, List.length_map, List.length_reverse]
    exact (Nat.digits_length_le_iff (by omega) n).mpr h

theorem not_mem_decimal {d : UInt8} (hd : isDigit d = false) (n : Nat) : d ∉ decimal n := by
  intro h
  simp [isDigit_of_mem_decimal h] at hd

/-- Every `u64` is read back from its decimal text. -/
@[simp] theorem parseU64_decimal (n : UInt64) : parseU64 (decimal n.toNat) = some n := by
  have hall : (decimal n.toNat).all isDigit = true :=
    List.all_eq_true.mpr fun c hc => isDigit_of_mem_decimal hc
  have hlt : n.toNat < u64Bound := n.toNat_lt
  simp [parseU64, hall, hlt]

theorem parseU64_decimal_of_lt {n : Nat} (h : n < u64Bound) :
    parseU64 (decimal n) = some (UInt64.ofNat n) := by
  have hn : (UInt64.ofNat n).toNat = n := by
    simp only [UInt64.toNat_ofNat', u64Bound] at *
    omega
  conv_lhs => rw [← hn]
  exact parseU64_decimal _

end TorrentAtlas.Encoding
