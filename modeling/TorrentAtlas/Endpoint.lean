import Mathlib.Data.List.TakeWhile
import TorrentAtlas.Encoding

/-!
# Endpoints (`common/net/net.{hpp,cpp}`)

`inet_pton` is modelled by what it accepts: four decimal numbers up to 255
without leading zeros. It is handed a C string, so it sees the bytes before the
first NUL only, while `Endpoint::ip` keeps the whole substring.
-/
namespace TorrentAtlas

open Encoding

structure Endpoint where
  ip : Bytes
  port : Nat
  deriving DecidableEq, Repr

/-- `std::string::c_str` as a C library function reads it. -/
def cStr (s : Bytes) : Bytes := s.takeWhile (· ≠ 0)

/-- One number of a dotted quad, as `inet_pton` reads it. -/
def octet (text : Bytes) : Option UInt8 :=
  if text.isEmpty || !text.all isDigit || (1 < text.length && text.head? == some 48) ||
      255 < decimalValue text then none
  else some (UInt8.ofNat (decimalValue text))

/-- `inet_pton(AF_INET, ...)`: the four address bytes. -/
def inetPton (cString : Bytes) : Option (List UInt8) :=
  let numbers := split cString (chr '.')
  if numbers.length = 4 then numbers.mapM octet else none

/-- The address and port a `sockaddr_in` is filled with. -/
def toAddress (endpoint : Endpoint) : Option (List UInt8 × Nat) :=
  if endpoint.port = 0 ∨ endpoint.port > 65535 then none
  else (inetPton (cStr endpoint.ip)).map (fun address => (address, endpoint.port))

theorem cStr_of_not_mem {s : Bytes} (h : 0 ∉ s) : cStr s = s := by
  rw [cStr, List.takeWhile_eq_self_iff]
  intro b hb
  simpa using fun hz : b = 0 => h (hz ▸ hb)

theorem octet_of_mem {numbers : List Bytes} {bytes : List UInt8} (h : numbers.mapM octet = some bytes) {number : Bytes}
    (hn : number ∈ numbers) : ∃ v, octet number = some v := by
  induction numbers generalizing bytes with
  | nil => simp at hn
  | cons first rest ih =>
    rw [List.mapM_cons] at h
    obtain ⟨v, hv, h⟩ := Option.bind_eq_some_iff.mp h
    obtain ⟨vs, hvs, -⟩ := Option.bind_eq_some_iff.mp h
    rcases List.mem_cons.mp hn with rfl | hn
    · exact ⟨v, hv⟩
    · exact ih hvs hn

/-- `inet_pton` accepts nothing but digits and dots. -/
theorem of_mem_inetPton {text : Bytes} (h : (inetPton text).isSome = true) {b : UInt8} (hb : b ∈ text) :
    isDigit b = true ∨ b = chr '.' := by
  unfold inetPton at h
  dsimp only at h
  split at h
  · obtain ⟨bytes, hbytes⟩ := Option.isSome_iff_exists.mp h
    rw [split_eq] at hbytes
    have hjoin : [chr '.'].intercalate (text.splitOn (chr '.')) = text := List.intercalate_splitOn _
    rw [← hjoin] at hb
    rcases Delimited.mem_intercalate hb with rfl | ⟨number, hnumber, hmem⟩
    · exact Or.inr rfl
    · left
      obtain ⟨v, hv⟩ := octet_of_mem hbytes hnumber
      unfold octet at hv
      split at hv
      · simp at hv
      · next hok =>
        simp only [Bool.or_eq_true, Bool.not_eq_true', not_or, Bool.not_eq_false] at hok
        exact List.all_eq_true.mp hok.1.1.2 b hmem
  · simp at h

namespace Endpoint

def parse (text : Bytes) : Option Endpoint :=
  match find text (chr ':') 0 with
  | none => none
  | some colon =>
    if colon = 0 || (find text (chr ':') (colon + 1)).isSome then none
    else
      match parseU64 (text.drop (colon + 1)) with
      | none => none
      | some port =>
        if port = 0 || port > 65535 then none
        else
          let endpoint : Endpoint := ⟨text.take colon, port.toNat⟩
          if (toAddress endpoint).isSome then some endpoint else none

def toString (e : Endpoint) : Bytes := e.ip ++ lit ":" ++ decimal e.port

/-- What `parse` guarantees of the endpoint it returns. -/
structure WellFormed (e : Endpoint) : Prop where
  ip_ne_nil : e.ip ≠ []
  ip_colon : chr ':' ∉ e.ip
  port_pos : 0 < e.port
  port_le : e.port ≤ 65535
  address : (inetPton (cStr e.ip)).isSome = true

theorem toNat_ofNat_port {port : Nat} (h : port ≤ 65535) : (UInt64.ofNat port).toNat = port := by
  have hlt : port < 2 ^ 64 := by omega
  rw [UInt64.toNat_ofNat', Nat.mod_eq_of_lt hlt]

/-- Every accepted text is one address, one colon and one decimal port. -/
theorem parse_eq_some {text : Bytes} {e : Endpoint} (h : parse text = some e) :
    e.WellFormed ∧ ∃ port, parseU64 port = some (UInt64.ofNat e.port) ∧ text = e.ip ++ chr ':' :: port := by
  unfold parse at h
  split at h
  · simp at h
  · next colon hcolon =>
    obtain ⟨-, hlt, hfree, hcut⟩ := find_eq_some hcolon
    simp only [List.drop_zero, Nat.sub_zero] at hfree hcut
    split at h
    · simp at h
    · next hmore =>
      simp only [Bool.or_eq_true, decide_eq_true_eq, not_or, Bool.not_eq_true, Option.isSome_eq_false_iff,
        Option.isNone_iff_eq_none] at hmore
      split at h
      · simp at h
      · next port hport =>
        split at h
        · simp at h
        · next hrange =>
          simp only [Bool.or_eq_true, decide_eq_true_eq, not_or, UInt64.not_lt] at hrange
          dsimp only at h
          split at h
          · next haddr =>
            have he : e = ⟨text.take colon, port.toNat⟩ := (Option.some.inj h).symm
            have hpos : port.toNat ≠ 0 := fun hz => hrange.1 (UInt64.toNat_inj.mp (by simpa using hz))
            have hle : port.toNat ≤ 65535 := by simpa [UInt64.le_iff_toNat_le] using hrange.2
            have hip : text.take colon ≠ [] := by
              intro hnil
              rcases List.take_eq_nil_iff.mp hnil with h0 | h0
              · exact hmore.1 h0
              · simp [h0] at hlt
            simp only [toAddress, hpos, Nat.not_lt.mpr hle, or_self, if_false, Option.isSome_map] at haddr
            subst he
            exact ⟨⟨hip, hfree, Nat.pos_of_ne_zero hpos, hle, haddr⟩, text.drop (colon + 1), by simpa using hport, hcut⟩
          · simp at h

/-- Any spelling of the port of a well-formed endpoint is accepted after its address. -/
theorem parse_append {e : Endpoint} (h : e.WellFormed) {port : Bytes}
    (hport : parseU64 port = some (UInt64.ofNat e.port)) : parse (e.ip ++ chr ':' :: port) = some e := by
  have hdigits : chr ':' ∉ port := by
    intro hm
    have hcolon := (parseU64_eq_some.mp hport).2.1 _ hm
    exact absurd hcolon (by decide)
  have hnat := toNat_ofNat_port h.port_le
  have hzero : UInt64.ofNat e.port ≠ 0 := by
    intro hz
    have := congrArg UInt64.toNat hz
    rw [hnat] at this
    have hp := h.port_pos
    simp at this
    omega
  have hle : ¬ UInt64.ofNat e.port > 65535 := by
    simp only [gt_iff_lt, UInt64.lt_iff_toNat_lt, hnat]
    have := h.port_le
    simp only [UInt64.reduceToNat]
    omega
  have hdrop : (e.ip ++ chr ':' :: port).drop (e.ip.length + 1) = port := by
    rw [List.drop_append, List.drop_eq_nil_of_le (by omega)]
    simp
  have hnext : find (e.ip ++ chr ':' :: port) (chr ':') (e.ip.length + 1) = none := by
    rw [find_eq_none, hdrop]
    exact hdigits
  have hlen : e.ip.length ≠ 0 := by simpa using h.ip_ne_nil
  have hpos := h.port_pos
  have hle' := h.port_le
  have haddr : (toAddress e).isSome = true := by
    rw [toAddress, if_neg (by omega), Option.isSome_map]
    exact h.address
  simp only [parse, find_append _ h.ip_colon, hnext, hdrop, hport, hnat, List.take_left']
  simp [hlen, hzero, hle, haddr]

/-- The printed form of a well-formed endpoint is read back as the same endpoint. -/
theorem parse_toString {e : Endpoint} (h : e.WellFormed) : parse e.toString = some e := by
  have hp : parseU64 (decimal e.port) = some (UInt64.ofNat e.port) := by
    apply parseU64_decimal_of_lt
    have := h.port_le
    simp only [u64Bound]
    omega
  simpa [toString, lit, chr] using parse_append h hp

end Endpoint

end TorrentAtlas
