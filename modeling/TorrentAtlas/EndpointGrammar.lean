import TorrentAtlas.Endpoint

/-!
# The grammar of endpoints (`common/net/net.cpp`)

`Endpoint::parse` looks for the colon, reads the port with `parseU64` and asks
`inet_pton` about what stands before the colon. A text is read as an address, a port and
a tail: the bytes from a NUL to the colon, which `inet_pton` never sees and which
`Endpoint::ip` keeps. The grammar of the header has no tail.
-/
namespace TorrentAtlas

open Encoding

theorem octet_decimal : ∀ n : UInt8, octet (decimal n.toNat) = some n := by decide +kernel

/-- `inet_pton` takes one spelling of each number. -/
theorem octet_eq_some {text : Bytes} {n : UInt8} : octet text = some n ↔ text = decimal n.toNat := by
  constructor
  · intro h
    unfold octet at h
    split at h
    · simp at h
    · next hok =>
      simp only [Bool.or_eq_true, List.isEmpty_iff, Bool.not_eq_true', Bool.and_eq_true, decide_eq_true_eq,
        beq_iff_eq, not_or, not_and, Bool.not_eq_false, List.all_eq_true, not_lt] at hok
      obtain ⟨⟨⟨hne, hdigits⟩, hlead⟩, hle⟩ := hok
      have hn : n.toNat = decimalValue text := by
        rw [← Option.some.inj h, UInt8.toNat_ofNat']
        omega
      rw [hn, decimal_decimalValue hne hdigits]
      rcases Nat.lt_or_ge 1 text.length with hlong | hshort
      · exact Or.inr (hlead hlong)
      · exact Or.inl hshort
  · rintro rfl
    exact octet_decimal n

theorem mapM_octet {numbers : List Bytes} {address : List UInt8} :
    numbers.mapM octet = some address ↔ numbers = address.map fun n => decimal n.toNat := by
  induction numbers generalizing address with
  | nil =>
    cases address <;> simp
  | cons number numbers ih =>
    cases address with
    | nil => simp [List.mapM_cons, Option.bind_eq_some_iff]
    | cons n address =>
      have hstep : (number :: numbers).mapM octet = some (n :: address) ↔
          octet number = some n ∧ numbers.mapM octet = some address := by
        simp [List.mapM_cons, Option.bind_eq_some_iff]
      rw [hstep, octet_eq_some, ih, List.map_cons, List.cons.injEq]

/-- The canonical dotted quad of an address. -/
def dottedQuad (address : List UInt8) : Bytes := join (address.map fun n => decimal n.toNat) (chr '.')

theorem not_mem_dottedQuad {b : UInt8} (hdigit : isDigit b = false) (hdot : b ≠ chr '.') (address : List UInt8) :
    b ∉ dottedQuad address := by
  intro h
  rw [dottedQuad, join_eq] at h
  rcases Delimited.mem_intercalate h with h | ⟨number, hnumber, hb⟩
  · exact hdot h
  · obtain ⟨n, -, rfl⟩ := List.mem_map.mp hnumber
    exact not_mem_decimal hdigit n.toNat hb

/-- `inet_pton` accepts exactly the canonical dotted quads. -/
theorem inetPton_eq_some {text : Bytes} {address : List UInt8} :
    inetPton text = some address ↔ address.length = 4 ∧ text = dottedQuad address := by
  have hpton : inetPton text = some address ↔
      (text.splitOn (chr '.')).length = 4 ∧ text.splitOn (chr '.') = address.map fun n => decimal n.toNat := by
    rw [← mapM_octet, inetPton, split_eq]
    split <;> simp_all
  rw [hpton, dottedQuad, join_eq]
  constructor
  · rintro ⟨hlen, hsplit⟩
    refine ⟨by simpa [hsplit] using hlen, ?_⟩
    rw [← hsplit, List.intercalate_splitOn]
  · rintro ⟨hlen, rfl⟩
    have hsplit : ([chr '.'].intercalate (address.map fun n => decimal n.toNat)).splitOn (chr '.') =
        address.map fun n => decimal n.toNat := by
      apply Delimited.splitOn_intercalate_iff.mpr
      refine ⟨?_, ?_⟩
      · intro hnil
        rw [List.map_eq_nil_iff.mp hnil] at hlen
        simp at hlen
      · intro number hnumber
        obtain ⟨n, -, rfl⟩ := List.mem_map.mp hnumber
        exact not_mem_decimal (by decide) n.toNat
    rw [hsplit]
    exact ⟨by simpa using hlen, rfl⟩

theorem dottedQuad_injective {address address' : List UInt8} (h : address.length = 4)
    (heq : dottedQuad address = dottedQuad address') (h' : address'.length = 4) : address = address' := by
  have hread := inetPton_eq_some.mpr ⟨h, rfl⟩
  rw [heq, inetPton_eq_some.mpr ⟨h', rfl⟩] at hread
  exact (Option.some.inj hread).symm

/-- A C string ends at the tail. -/
theorem cStr_append {s tail : Bytes} (hs : 0 ∉ s) (htail : tail = [] ∨ tail.head? = some 0) :
    cStr (s ++ tail) = s := by
  have hall : ∀ b ∈ s, (decide (b ≠ 0)) = true := by
    intro b hb
    simpa using fun hz : b = 0 => hs (hz ▸ hb)
  rw [cStr, List.takeWhile_append_of_pos hall]
  cases tail with
  | nil => simp
  | cons b tail =>
    have hb : b = 0 := by simpa using htail
    simp [hb]

theorem cStr_split (s : Bytes) : ∃ tail, s = cStr s ++ tail ∧ (tail = [] ∨ tail.head? = some 0) := by
  refine ⟨s.dropWhile (· ≠ 0), (List.takeWhile_append_dropWhile).symm, ?_⟩
  cases hd : s.dropWhile (· ≠ 0) with
  | nil => exact Or.inl rfl
  | cons b tail =>
    right
    have hb := List.head?_dropWhile_not (· ≠ (0 : UInt8)) s
    rw [hd] at hb
    simpa using hb

namespace Endpoint

/-- How a text is read: the quad `inet_pton` sees, the tail up to the colon, and the port. -/
structure Reads (text : Bytes) (address : List UInt8) (port : Nat) (tail : Bytes) : Prop where
  quad : address.length = 4
  port_pos : 0 < port
  port_le : port ≤ 65535
  tail_nul : tail = [] ∨ tail.head? = some 0
  tail_colon : chr ':' ∉ tail
  spelled : ∃ digits, digits ≠ [] ∧ (∀ b ∈ digits, isDigit b = true) ∧ decimalValue digits = port ∧
    text = dottedQuad address ++ tail ++ chr ':' :: digits

/-- The grammar: a canonical dotted quad, one colon, and a port from 1 to 65535 in digits. -/
def InGrammar (text : Bytes) (address : List UInt8) (port : Nat) : Prop := Reads text address port []

variable {text text' : Bytes} {address address' : List UInt8} {port port' : Nat} {tail tail' : Bytes}

theorem Reads.cStr_ip (h : Reads text address port tail) : cStr (dottedQuad address ++ tail) = dottedQuad address :=
  cStr_append (not_mem_dottedQuad (by decide) (by decide) address) h.tail_nul

/-- What can be read is accepted, and the tail stays in the address. -/
theorem Reads.parse_eq (h : Reads text address port tail) : parse text = some ⟨dottedQuad address ++ tail, port⟩ := by
  have hread := inetPton_eq_some.mpr ⟨h.quad, rfl⟩
  have hwell : WellFormed ⟨dottedQuad address ++ tail, port⟩ := by
    refine ⟨?_, ?_, h.port_pos, h.port_le, ?_⟩
    · intro hnil
      have hempty : dottedQuad address = [] := (List.append_eq_nil_iff.mp hnil).1
      rw [hempty] at hread
      exact absurd hread (by simp [show inetPton [] = none by decide])
    · rw [List.mem_append, not_or]
      exact ⟨not_mem_dottedQuad (by decide) (by decide) address, h.tail_colon⟩
    · rw [h.cStr_ip, hread, Option.isSome_some]
  obtain ⟨digits, hne, hdigits, hvalue, rfl⟩ := h.spelled
  apply parse_append hwell
  rw [parseU64_eq_some]
  exact ⟨hne, hdigits, by rw [hvalue, toNat_ofNat_port h.port_le]⟩

/-- Every accepted text can be read. -/
theorem exists_reads {e : Endpoint} (h : parse text = some e) :
    ∃ address tail, Reads text address e.port tail ∧ e.ip = dottedQuad address ++ tail := by
  obtain ⟨hwell, digits, hport, htext⟩ := parse_eq_some h
  obtain ⟨hne, hdigits, hvalue⟩ := parseU64_eq_some.mp hport
  obtain ⟨address, haddress⟩ := Option.isSome_iff_exists.mp hwell.address
  obtain ⟨hlen, hquad⟩ := inetPton_eq_some.mp haddress
  obtain ⟨tail, hip, htail⟩ := cStr_split e.ip
  rw [hquad] at hip
  have hcolon : chr ':' ∉ tail := by
    intro hm
    apply hwell.ip_colon
    rw [hip]
    exact List.mem_append_right _ hm
  have hport' : decimalValue digits = e.port := by rw [hvalue, toNat_ofNat_port hwell.port_le]
  exact ⟨address, tail, ⟨hlen, hwell.port_pos, hwell.port_le, htail, hcolon, digits, hne, hdigits, hport',
    by rw [← hip, htext]⟩, hip⟩

/-- Two readings of one endpoint agree. -/
theorem Reads.unique (h : Reads text address port tail) (h' : Reads text' address' port' tail')
    (heq : parse text = parse text') : address = address' ∧ port = port' ∧ tail = tail' := by
  rw [h.parse_eq, h'.parse_eq, Option.some.injEq, Endpoint.mk.injEq] at heq
  obtain ⟨hip, hport⟩ := heq
  have hquad : dottedQuad address = dottedQuad address' := by
    rw [← h.cStr_ip, hip, h'.cStr_ip]
  refine ⟨dottedQuad_injective h.quad hquad h'.quad, hport, ?_⟩
  rw [hquad] at hip
  exact List.append_cancel_left hip

/-- A text is accepted as its grammar says exactly if it has no tail. -/
theorem accepted_iff (text : Bytes) :
    ((parse text).isSome = true ↔ ∃ address port, InGrammar text address port) ↔
      ∀ address port tail, Reads text address port tail → tail = [] := by
  constructor
  · intro hexact address port tail h
    obtain ⟨address', port', h'⟩ := hexact.mp (by rw [h.parse_eq, Option.isSome_some])
    exact (h.unique h' rfl).2.2
  · intro hclean
    constructor
    · intro hsome
      obtain ⟨e, he⟩ := Option.isSome_iff_exists.mp hsome
      obtain ⟨address, tail, h, -⟩ := exists_reads he
      have htail := hclean address e.port tail h
      subst htail
      exact ⟨address, e.port, h⟩
    · rintro ⟨address, port, h⟩
      rw [h.parse_eq, Option.isSome_some]

/-- What `parse` returns is printed and read back. -/
theorem parse_toString_of_parse {e : Endpoint} (h : parse text = some e) : parse e.toString = some e :=
  parse_toString (parse_eq_some h).1

/-- The tail is no part of the socket address. -/
theorem Reads.toAddress_eq {e : Endpoint} (h : Reads text address port tail) (he : parse text = some e) :
    toAddress e = some (address, port) := by
  have hpos := h.port_pos
  have hle := h.port_le
  have hrange : ¬ (port = 0 ∨ port > 65535) := by omega
  rw [h.parse_eq, Option.some.injEq] at he
  rw [← he, toAddress, if_neg hrange, h.cStr_ip, inetPton_eq_some.mpr ⟨h.quad, rfl⟩, Option.map_some]

/-- Two endpoints compare as their socket addresses do exactly if no reading tells their tails apart. -/
theorem compare_iff {e e' : Endpoint} (he : parse text = some e) (he' : parse text' = some e') :
    (toAddress e = toAddress e' ↔ e = e') ↔
      ∀ address port tail tail', Reads text address port tail → Reads text' address port tail' → tail = tail' := by
  constructor
  · intro hexact address port tail tail' h h'
    have hsame : toAddress e = toAddress e' := by rw [h.toAddress_eq he, h'.toAddress_eq he']
    have hends : parse text = parse text' := by rw [he, he', hexact.mp hsame]
    exact (h.unique h' hends).2.2
  · intro htails
    constructor
    · intro hsame
      obtain ⟨address, tail, h, hip⟩ := exists_reads he
      obtain ⟨address', tail', h', hip'⟩ := exists_reads he'
      rw [h.toAddress_eq he, h'.toAddress_eq he', Option.some.injEq, Prod.mk.injEq] at hsame
      obtain ⟨rfl, hport⟩ := hsame
      rw [← hport] at h'
      rw [Endpoint.mk.injEq, hip, hip', htails address e.port tail tail' h h']
      exact ⟨rfl, hport⟩
    · rintro rfl
      rfl

/-- What `parse` accepts, when that is its grammar, and when the endpoints it returns compare as addresses do. -/
theorem parse_canonical_iff (text text' : Bytes) :
    ((parse text).isSome = true ↔ ∃ address port tail, Reads text address port tail) ∧
    (((parse text).isSome = true ↔ ∃ address port, InGrammar text address port) ↔
      ∀ address port tail, Reads text address port tail → tail = []) ∧
    (∀ e, parse text = some e → parse e.toString = some e) ∧
    ∀ e e', parse text = some e → parse text' = some e' →
      ((toAddress e = toAddress e' ↔ e = e') ↔
        ∀ address port tail tail', Reads text address port tail → Reads text' address port tail' → tail = tail') := by
  refine ⟨⟨fun h => ?_, ?_⟩, accepted_iff text, fun e => parse_toString_of_parse, fun e e' => compare_iff⟩
  · obtain ⟨e, he⟩ := Option.isSome_iff_exists.mp h
    obtain ⟨address, tail, hreads, -⟩ := exists_reads he
    exact ⟨address, e.port, tail, hreads⟩
  · rintro ⟨address, port, tail, h⟩
    rw [h.parse_eq, Option.isSome_some]

/-- A port may have leading zeros; the two spellings are one endpoint, and no tail tells them apart. -/
theorem parse_canonical_port :
    parse (toString ⟨lit "127.0.0.1", 5000⟩) = some ⟨lit "127.0.0.1", 5000⟩ ∧
    ∀ address port tail tail', Reads (lit "127.0.0.1:5000") address port tail →
      Reads (lit "127.0.0.1:05000") address port tail' → tail = tail' := by
  have hplain : parse (lit "127.0.0.1:5000") = some ⟨lit "127.0.0.1", 5000⟩ := by decide +kernel
  have hzero : parse (lit "127.0.0.1:05000") = some ⟨lit "127.0.0.1", 5000⟩ := by decide +kernel
  obtain ⟨-, -, hprinted, hcompare⟩ := parse_canonical_iff (lit "127.0.0.1:5000") (lit "127.0.0.1:05000")
  exact ⟨hprinted _ hplain, (hcompare _ _ hplain hzero).mp (by simp)⟩

/-- Behind a NUL anything but a colon is accepted, and the endpoint differs from the one without it. -/
theorem parse_hidden_tail :
    ¬ ((parse (lit "10.0.0.1" ++ 0 :: lit ",10.0.0.2:6881")).isSome = true ↔
      ∃ address port, InGrammar (lit "10.0.0.1" ++ 0 :: lit ",10.0.0.2:6881") address port) ∧
    parse (lit "10.0.0.1:6881") = some ⟨lit "10.0.0.1", 6881⟩ ∧
    parse (lit "10.0.0.1" ++ 0 :: lit ",10.0.0.2:6881") = some ⟨lit "10.0.0.1" ++ 0 :: lit ",10.0.0.2", 6881⟩ ∧
    toAddress ⟨lit "10.0.0.1" ++ 0 :: lit ",10.0.0.2", 6881⟩ = toAddress ⟨lit "10.0.0.1", 6881⟩ := by
  refine ⟨fun h => ?_, by decide +kernel, by decide +kernel, by decide +kernel⟩
  obtain ⟨address, port, hgrammar⟩ := h.mp (by decide +kernel)
  obtain ⟨digits, -, hdigits, -, htext⟩ := hgrammar.spelled
  have hnul : (0 : UInt8) ∈ lit "10.0.0.1" ++ 0 :: lit ",10.0.0.2:6881" := by simp
  rw [htext, List.append_nil, List.mem_append, List.mem_cons] at hnul
  rcases hnul with hnul | hnul | hnul
  · exact not_mem_dottedQuad (by decide) (by decide) address hnul
  · exact absurd hnul (by decide)
  · exact absurd (hdigits 0 hnul) (by decide)

end Endpoint

end TorrentAtlas
