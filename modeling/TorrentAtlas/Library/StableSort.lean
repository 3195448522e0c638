import Mathlib.Data.List.Sort

/-!
# Sorting by a key

A stable sort by a key puts smaller keys first and leaves ties in the order they came
in. Insertion sort is such a sort: every element is put before the first one whose key
is not smaller.
-/
namespace StableSort

variable {α β : Type} [LinearOrder β] (key : α → β) (came : α → α → Prop)

/-- Smaller key, or the same key and came first. -/
def Precedes (a b : α) : Prop := key a < key b ∨ key a = key b ∧ came a b

variable {key came}

theorem Precedes.le {a b : α} (h : Precedes key came a b) : key a ≤ key b := by
  rcases h with hlt | ⟨heq, -⟩
  · exact le_of_lt hlt
  · exact le_of_eq heq

theorem Precedes.of_le {a b : α} (hkey : key a ≤ key b) (hcame : came a b) : Precedes key came a b := by
  rcases lt_or_eq_of_le hkey with hlt | heq
  · exact Or.inl hlt
  · exact Or.inr ⟨heq, hcame⟩

/-- Putting an element that came before all the others in its place. -/
theorem pairwise_orderedInsert {a : α} {l : List α} (ha : ∀ b ∈ l, came a b) (hl : l.Pairwise (Precedes key came)) :
    (l.orderedInsert (fun a b => key a ≤ key b) a).Pairwise (Precedes key came) := by
  induction l with
  | nil => exact List.pairwise_singleton _ _
  | cons b l ih =>
    obtain ⟨hb, hl'⟩ := List.pairwise_cons.mp hl
    rw [List.orderedInsert_cons]
    split
    · next hle =>
      refine List.pairwise_cons.mpr ⟨fun c hc => Precedes.of_le ?_ (ha c hc), hl⟩
      rcases List.mem_cons.mp hc with rfl | hc
      · exact hle
      · exact le_trans hle (hb c hc).le
    · next hle =>
      refine List.pairwise_cons.mpr ⟨fun c hc => ?_, ih (fun c hc => ha c (List.mem_cons_of_mem _ hc)) hl'⟩
      rcases (List.mem_orderedInsert _).mp hc with rfl | hc
      · exact Or.inl (not_le.mp hle)
      · exact hb c hc

theorem pairwise_insertionSort {l : List α} (h : l.Pairwise came) :
    (l.insertionSort (fun a b => key a ≤ key b)).Pairwise (Precedes key came) := by
  induction l with
  | nil => exact List.Pairwise.nil
  | cons a l ih =>
    obtain ⟨ha, hl⟩ := List.pairwise_cons.mp h
    rw [List.insertionSort_cons]
    exact pairwise_orderedInsert (fun b hb => ha b ((List.mem_insertionSort _).mp hb)) (ih hl)

end StableSort
