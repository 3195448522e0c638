import Mathlib.Order.Defs.LinearOrder
import Mathlib.Data.Nat.Digits.Defs
import Mathlib.Data.Nat.Digits.Lemmas
import Mathlib.Tactic.Common
import TorrentAtlas.Library.Delimited

/-!
# Byte strings

`std::string` values are lists of bytes. String literals of the source are
written `lit "..."`; all of them are ASCII. Strings are ordered as
`std::string::operator<` orders them, byte by byte as unsigned characters.
-/
namespace TorrentAtlas

abbrev Bytes := List UInt8

/-- A string literal of the source. -/
def lit (s : String) : Bytes := s.toList.map (fun c => UInt8.ofNat c.toNat)

/-- A character literal of the source. -/
def chr (c : Char) : UInt8 := UInt8.ofNat c.toNat

instance linearOrderUInt8 : LinearOrder UInt8 where
  le_refl := UInt8.le_refl
  le_trans _ _ _ := UInt8.le_trans
  le_antisymm _ _ := UInt8.le_antisymm
  le_total := UInt8.le_total
  lt_iff_le_not_ge a b := by
    simp only [UInt8.le_iff_toNat_le, UInt8.lt_iff_toNat_lt]
    omega
  toDecidableLE := inferInstance
  toDecidableLT := inferInstance
  toDecidableEq := inferInstance

instance linearOrderUInt64 : LinearOrder UInt64 where
  le_refl := UInt64.le_refl
  le_trans _ _ _ := UInt64.le_trans
  le_antisymm _ _ := UInt64.le_antisymm
  le_total := UInt64.le_total
  lt_iff_le_not_ge a b := by
    simp only [UInt64.le_iff_toNat_le, UInt64.lt_iff_toNat_lt]
    omega
  toDecidableLE := inferInstance
  toDecidableLT := inferInstance
  toDecidableEq := inferInstance

/-- A shortcut: every test of membership in a byte string goes through this instance. -/
instance lawfulBEqUInt8 : LawfulBEq UInt8 := inferInstance

/-- `std::isspace` in the C locale: space, `\t`, `\n`, `\v`, `\f`, `\r`. -/
def isSpace (c : UInt8) : Bool := c == 32 || (9 ≤ c && c ≤ 13)

/-- The words `std::istringstream >> word` extracts, in order. -/
def words (text : Bytes) : List Bytes := Delimited.words isSpace text

/-- `std::isdigit`. -/
def isDigit (c : UInt8) : Bool := 48 ≤ c && c ≤ 57

/-- `std::to_string` of an unsigned number. -/
def decimal (n : Nat) : Bytes :=
  if n = 0 then [48] else (Nat.digits 10 n).reverse.map (fun d => UInt8.ofNat (48 + d))

/-- `std::to_string` of a signed number. -/
def decimalInt (n : Int) : Bytes :=
  if n < 0 then chr '-' :: decimal n.natAbs else decimal n.natAbs

/-- The value of a string of decimal digits. -/
def decimalValue (text : Bytes) : Nat := text.foldl (fun v c => 10 * v + (c.toNat - 48)) 0

end TorrentAtlas
