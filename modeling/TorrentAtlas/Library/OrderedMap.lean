import Mathlib.Order.Defs.LinearOrder
import Mathlib.Data.List.Basic
import Mathlib.Data.List.Sort
import Mathlib.Tactic.Common

/-!
# Finite maps kept in key order

A finite map is its list of entries in strictly increasing key order, so the
list is determined by the lookups and iterating over it visits the
keys in order. Every operation carries the order proof in its result, and each
has one lookup lemma; nothing else about the list is needed by users of the map.
-/

/-- Entries in strictly increasing key order. -/
structure OrderedMap (K V : Type) [LinearOrder K] where
  entries : List (K × V)
  sorted : entries.Pairwise (fun a b => a.1 < b.1)

namespace OrderedMap

variable {K V : Type} [LinearOrder K]

def empty : OrderedMap K V := ⟨[], List.Pairwise.nil⟩

def lookup (k : K) : List (K × V) → Option V
  | [] => none
  | (k', v) :: rest => if k = k' then some v else lookup k rest

def find (m : OrderedMap K V) (k : K) : Option V := lookup k m.entries

def contains (m : OrderedMap K V) (k : K) : Bool := (m.find k).isSome

def isEmpty (m : OrderedMap K V) : Bool := m.entries.isEmpty

def keys (m : OrderedMap K V) : List K := m.entries.map Prod.fst

/-- Put `v` at its place in the order, replacing an entry with the same key. -/
def insertEntry (k : K) (v : V) : List (K × V) → List (K × V)
  | [] => [(k, v)]
  | (k', v') :: rest =>
    if k < k' then (k, v) :: (k', v') :: rest
    else if k = k' then (k, v) :: rest
    else (k', v') :: insertEntry k v rest

/-- Visit the entries in order, keeping those that `f` keeps. -/
def filterEntries (f : K → V → Option V) : List (K × V) → List (K × V)
  | [] => []
  | (k, v) :: rest =>
    match f k v with
    | none => filterEntries f rest
    | some v' => (k, v') :: filterEntries f rest

theorem mem_insertEntry {k : K} {v : V} {a : K × V} {l : List (K × V)}
    (h : a ∈ insertEntry k v l) : a = (k, v) ∨ a ∈ l := by
  induction l with
  | nil => simpa [insertEntry] using h
  | cons hd tl ih =>
    obtain ⟨k', v'⟩ := hd
    simp only [insertEntry] at h
    split_ifs at h with h₁ h₂
    · simpa using h
    · rcases List.mem_cons.mp h with h | h
      · exact Or.inl h
      · exact Or.inr (List.mem_cons_of_mem _ h)
    · rcases List.mem_cons.mp h with h | h
      · exact Or.inr (by simp [h])
      · exact (ih h).imp id (List.mem_cons_of_mem _)

theorem sorted_insertEntry (k : K) (v : V) {l : List (K × V)}
    (h : l.Pairwise (fun a b => a.1 < b.1)) :
    (insertEntry k v l).Pairwise (fun a b => a.1 < b.1) := by
  induction l with
  | nil => simp [insertEntry]
  | cons hd tl ih =>
    obtain ⟨k', v'⟩ := hd
    obtain ⟨hhd, htl⟩ := List.pairwise_cons.mp h
    simp only [insertEntry]
    split_ifs with h₁ h₂
    · refine List.pairwise_cons.mpr ⟨?_, h⟩
      intro a ha
      rcases List.mem_cons.mp ha with rfl | ha
      · exact h₁
      · exact lt_trans h₁ (hhd a ha)
    · subst h₂
      exact List.pairwise_cons.mpr ⟨hhd, htl⟩
    · refine List.pairwise_cons.mpr ⟨?_, ih htl⟩
      intro a ha
      rcases mem_insertEntry ha with rfl | ha
      · exact lt_of_le_of_ne (not_lt.mp h₁) (Ne.symm h₂)
      · exact hhd a ha

omit [LinearOrder K] in
theorem mem_filterEntries {f : K → V → Option V} {k : K} {v' : V} {l : List (K × V)}
    (h : (k, v') ∈ filterEntries f l) : ∃ v, (k, v) ∈ l ∧ f k v = some v' := by
  induction l with
  | nil => simp [filterEntries] at h
  | cons hd tl ih =>
    obtain ⟨k₀, v₀⟩ := hd
    simp only [filterEntries] at h
    split at h
    · obtain ⟨v, hv, hf⟩ := ih h
      exact ⟨v, List.mem_cons_of_mem _ hv, hf⟩
    · next w hw =>
      rcases List.mem_cons.mp h with h | h
      · cases h
        exact ⟨v₀, List.mem_cons_self, hw⟩
      · obtain ⟨v, hv, hf⟩ := ih h
        exact ⟨v, List.mem_cons_of_mem _ hv, hf⟩

theorem sorted_filterEntries (f : K → V → Option V) {l : List (K × V)}
    (h : l.Pairwise (fun a b => a.1 < b.1)) :
    (filterEntries f l).Pairwise (fun a b => a.1 < b.1) := by
  induction l with
  | nil => simp [filterEntries]
  | cons hd tl ih =>
    obtain ⟨k₀, v₀⟩ := hd
    obtain ⟨hhd, htl⟩ := List.pairwise_cons.mp h
    simp only [filterEntries]
    split
    · exact ih htl
    · refine List.pairwise_cons.mpr ⟨?_, ih htl⟩
      rintro ⟨k, v⟩ ha
      obtain ⟨w, hw, -⟩ := mem_filterEntries ha
      exact hhd (k, w) hw

def insert (m : OrderedMap K V) (k : K) (v : V) : OrderedMap K V :=
  ⟨insertEntry k v m.entries, sorted_insertEntry k v m.sorted⟩

/-- Replace or drop every entry; `f k v = none` drops it. -/
def filterMap (m : OrderedMap K V) (f : K → V → Option V) : OrderedMap K V :=
  ⟨filterEntries f m.entries, sorted_filterEntries f m.sorted⟩

def erase (m : OrderedMap K V) (k : K) : OrderedMap K V :=
  m.filterMap (fun k' v => if k' = k then none else some v)

def mapValues (m : OrderedMap K V) (f : V → V) : OrderedMap K V := m.filterMap (fun _ v => some (f v))

/-- Insert into a set, and whether the key was new. -/
def insertNew (m : OrderedMap K Unit) (k : K) : OrderedMap K Unit × Bool := (m.insert k (), !m.contains k)

/-- Erase a key, and whether it was there. -/
def remove (m : OrderedMap K V) (k : K) : OrderedMap K V × Bool := (m.erase k, m.contains k)

/-- The entry of a key, which a lookup puts there if it is missing. -/
def subscript (m : OrderedMap K V) (k : K) (default : V) : OrderedMap K V × V :=
  (m.insert k ((m.find k).getD default), (m.find k).getD default)

@[simp] theorem find_empty (k : K) : (empty : OrderedMap K V).find k = none := rfl

theorem lookup_eq_none {k : K} {l : List (K × V)} (h : ∀ a ∈ l, k < a.1) : lookup k l = none := by
  induction l with
  | nil => rfl
  | cons hd tl ih =>
    have hk : k ≠ hd.1 := ne_of_lt (h hd List.mem_cons_self)
    simp only [lookup, if_neg hk]
    exact ih fun a ha => h a (List.mem_cons_of_mem _ ha)

theorem lookup_insertEntry (k k' : K) (v : V) (l : List (K × V)) :
    lookup k' (insertEntry k v l) = if k' = k then some v else lookup k' l := by
  induction l with
  | nil => simp [insertEntry, lookup]
  | cons hd tl ih =>
    obtain ⟨k₀, v₀⟩ := hd
    simp only [insertEntry]
    by_cases hk : k' = k
    · subst hk
      by_cases h₁ : k' < k₀
      · simp [lookup, h₁]
      · by_cases h₂ : k' = k₀
        · simp [lookup, if_neg h₁, if_pos h₂]
        · simp only [if_neg h₁, if_neg h₂, lookup]
          simpa using ih
    · split_ifs with h₁ h₂
      · simp [lookup, hk]
      · subst h₂
        simp [lookup, hk]
      · simp [lookup, ih, hk]

theorem lookup_filterEntries (f : K → V → Option V) (k : K) {l : List (K × V)}
    (h : l.Pairwise (fun a b => a.1 < b.1)) :
    lookup k (filterEntries f l) = (lookup k l).bind (f k) := by
  induction l with
  | nil => rfl
  | cons hd tl ih =>
    obtain ⟨k₀, v₀⟩ := hd
    obtain ⟨hhd, htl⟩ := List.pairwise_cons.mp h
    simp only [filterEntries]
    by_cases hk : k = k₀
    · subst hk
      have hnone : lookup k tl = none := lookup_eq_none fun a ha => hhd a ha
      split
      · next hf => rw [ih htl, hnone]; simp [lookup, hf]
      · next hf => simp [lookup, hf]
    · split
      · next hf => rw [ih htl]; simp [lookup, hk]
      · next hf => simp [lookup, hk, ih htl]

@[simp] theorem find_insert (m : OrderedMap K V) (k k' : K) (v : V) :
    (m.insert k v).find k' = if k' = k then some v else m.find k' :=
  lookup_insertEntry k k' v m.entries

@[simp] theorem find_filterMap (m : OrderedMap K V) (f : K → V → Option V) (k : K) :
    (m.filterMap f).find k = (m.find k).bind (f k) :=
  lookup_filterEntries f k m.sorted

@[simp] theorem find_mapValues (m : OrderedMap K V) (f : V → V) (k : K) :
    (m.mapValues f).find k = (m.find k).map f := by
  rw [mapValues, find_filterMap]
  cases m.find k <;> rfl

@[simp] theorem find_erase (m : OrderedMap K V) (k k' : K) :
    (m.erase k).find k' = if k' = k then none else m.find k' := by
  rw [erase, find_filterMap]
  by_cases h : k' = k
  · simp [h]
  · simp [h]

theorem contains_iff (m : OrderedMap K V) (k : K) :
    m.contains k = true ↔ ∃ v, m.find k = some v := by
  rw [contains, Option.isSome_iff_exists]

@[simp] theorem contains_insert (m : OrderedMap K V) (k k' : K) (v : V) :
    (m.insert k v).contains k' = (decide (k' = k) || m.contains k') := by
  by_cases h : k' = k <;> simp [contains, h]

@[simp] theorem contains_erase (m : OrderedMap K V) (k k' : K) :
    (m.erase k).contains k' = (!decide (k' = k) && m.contains k') := by
  by_cases h : k' = k <;> simp [contains, h]

@[simp] theorem contains_empty (k : K) : (empty : OrderedMap K V).contains k = false := rfl

theorem lookup_of_mem {k : K} {v : V} {l : List (K × V)}
    (h : l.Pairwise (fun a b => a.1 < b.1)) (hm : (k, v) ∈ l) : lookup k l = some v := by
  induction l with
  | nil => simp at hm
  | cons hd tl ih =>
    obtain ⟨hhd, htl⟩ := List.pairwise_cons.mp h
    rcases List.mem_cons.mp hm with rfl | hm
    · simp [lookup]
    · have hk : k ≠ hd.1 := ne_of_gt (hhd _ hm)
      simp only [lookup, if_neg hk]
      exact ih htl hm

theorem mem_of_lookup {k : K} {v : V} {l : List (K × V)} (h : lookup k l = some v) : (k, v) ∈ l := by
  induction l with
  | nil => simp [lookup] at h
  | cons hd tl ih =>
    obtain ⟨k₀, v₀⟩ := hd
    simp only [lookup] at h
    split at h
    · next hk => cases h; subst hk; exact List.mem_cons_self
    · exact List.mem_cons_of_mem _ (ih h)

/-- Iteration and lookup see the same entries. -/
theorem mem_entries_iff (m : OrderedMap K V) (k : K) (v : V) :
    (k, v) ∈ m.entries ↔ m.find k = some v :=
  ⟨lookup_of_mem m.sorted, mem_of_lookup⟩

/-- A map is what its lookups find. -/
theorem ext_find {m m' : OrderedMap K V} (h : ∀ k, m.find k = m'.find k) : m = m' := by
  have hirrefl : Std.Irrefl (fun a b : K × V => a.1 < b.1) := ⟨fun a => lt_irrefl a.1⟩
  have hasymm : Std.Antisymm (fun a b : K × V => a.1 < b.1) := ⟨fun a b hab hba => absurd hba (lt_asymm hab)⟩
  have hentries : m.entries = m'.entries := by
    refine m.sorted.eq_of_mem_iff m'.sorted ?_
    rintro ⟨k, v⟩
    rw [mem_entries_iff, mem_entries_iff, h]
  cases m
  cases m'
  simpa using hentries

theorem insert_of_find {m : OrderedMap K V} {k : K} {v : V} (h : m.find k = some v) : m.insert k v = m := by
  refine ext_find fun k' => ?_
  rw [find_insert]
  split
  · next he => rw [he, h]
  · rfl

theorem erase_of_find {m : OrderedMap K V} {k : K} (h : m.find k = none) : m.erase k = m := by
  refine ext_find fun k' => ?_
  rw [find_erase]
  split
  · next he => rw [he, h]
  · rfl

@[simp] theorem insert_insert (m : OrderedMap K V) (k : K) (v w : V) : (m.insert k v).insert k w = m.insert k w := by
  refine ext_find fun k' => ?_
  simp only [find_insert]
  split <;> rfl

@[simp] theorem erase_insert (m : OrderedMap K V) (k : K) (v : V) : (m.insert k v).erase k = m.erase k := by
  refine ext_find fun k' => ?_
  simp only [find_erase, find_insert]
  split <;> rfl

theorem mem_keys_iff (m : OrderedMap K V) (k : K) : k ∈ m.keys ↔ m.contains k = true := by
  rw [contains_iff, keys, List.mem_map]
  constructor
  · rintro ⟨⟨k', v⟩, hm, rfl⟩
    exact ⟨v, (mem_entries_iff m k' v).mp hm⟩
  · rintro ⟨v, hv⟩
    exact ⟨(k, v), (mem_entries_iff m k v).mpr hv, rfl⟩

/-- Two maps with the same domain list the same keys. -/
theorem keys_eq_of_contains {V' : Type} {m : OrderedMap K V} {m' : OrderedMap K V'}
    (h : ∀ k, m.contains k = m'.contains k) : m.keys = m'.keys := by
  have hm : m.keys.Pairwise (· < ·) := List.pairwise_map.mpr m.sorted
  have hm' : m'.keys.Pairwise (· < ·) := List.pairwise_map.mpr m'.sorted
  refine hm.eq_of_mem_iff hm' fun k => ?_
  rw [mem_keys_iff, mem_keys_iff, h]

theorem isEmpty_iff (m : OrderedMap K V) : m.isEmpty = true ↔ ∀ k, m.find k = none := by
  rw [isEmpty, List.isEmpty_iff]
  constructor
  · intro h k
    simp [find, h, lookup]
  · intro h
    apply List.eq_nil_iff_forall_not_mem.mpr
    rintro ⟨k, v⟩ hm
    have := (mem_entries_iff m k v).mp hm
    simp [h k] at this

theorem isEmpty_eq_false_iff (m : OrderedMap K V) :
    m.isEmpty = false ↔ ∃ k v, m.find k = some v := by
  constructor
  · intro h
    obtain ⟨⟨k, v⟩, hm⟩ := List.exists_mem_of_ne_nil m.entries (by simpa [isEmpty] using h)
    exact ⟨k, v, (mem_entries_iff m k v).mp hm⟩
  · rintro ⟨k, v, h⟩
    rw [Bool.eq_false_iff]
    intro he
    simp [(isEmpty_iff m).mp he k] at h

end OrderedMap
