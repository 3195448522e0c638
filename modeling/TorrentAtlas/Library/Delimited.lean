import Mathlib.Data.List.Basic
import Mathlib.Data.List.Infix
import Mathlib.Tactic.Common

/-!
# Fields and words of a list

Two ways to cut a list: at every occurrence of one delimiter, keeping empty
parts (`List.splitOn`), and into maximal runs of elements that are not blank
(`words`). The lemmas here say what a part cannot contain and how a list that
was glued from such parts comes apart again.
-/
namespace Delimited

variable {α : Type} {blank : α → Bool}

/-- No part contains an element it was cut at. -/
theorem mem_splitOnP {xs part : List α} (h : part ∈ xs.splitOnP blank) : ∀ a ∈ part, blank a = false := by
  induction xs generalizing part with
  | nil =>
    have hp : part = [] := by simpa using h
    simp [hp]
  | cons x xs ih =>
    rw [List.splitOnP_cons_eq_if_modifyHead] at h
    split at h
    · rcases List.mem_cons.mp h with rfl | h
      · simp
      · exact ih h
    · next hx =>
      obtain ⟨p, ps, hps⟩ := List.exists_cons_of_ne_nil (List.splitOnP_ne_nil blank xs)
      rw [hps, List.modifyHead_cons] at h
      rcases List.mem_cons.mp h with rfl | h
      · intro a ha
        rcases List.mem_cons.mp ha with rfl | ha
        · simpa using hx
        · exact ih (by rw [hps]; exact List.mem_cons_self) a ha
      · exact ih (by rw [hps]; exact List.mem_cons_of_mem _ h)

theorem length_le_of_mem_splitOnP {xs part : List α} (h : part ∈ xs.splitOnP blank) : part.length ≤ xs.length := by
  induction xs generalizing part with
  | nil =>
    have hp : part = [] := by simpa using h
    simp [hp]
  | cons x xs ih =>
    rw [List.splitOnP_cons_eq_if_modifyHead] at h
    rw [List.length_cons]
    split at h
    · rcases List.mem_cons.mp h with rfl | h
      · simp
      · have := ih h
        omega
    · obtain ⟨p, ps, hps⟩ := List.exists_cons_of_ne_nil (List.splitOnP_ne_nil blank xs)
      rw [hps, List.modifyHead_cons] at h
      rcases List.mem_cons.mp h with rfl | h
      · have hp : p ∈ xs.splitOnP blank := by rw [hps]; exact List.mem_cons_self
        have := ih hp
        rw [List.length_cons]
        omega
      · have hp : part ∈ xs.splitOnP blank := by rw [hps]; exact List.mem_cons_of_mem _ h
        have := ih hp
        omega

theorem intercalate_ne_nil (d : α) {parts : List (List α)} (hne : parts ≠ []) (h : ∀ p ∈ parts, p ≠ []) :
    [d].intercalate parts ≠ [] := by
  cases parts with
  | nil => exact absurd rfl hne
  | cons p ps =>
    cases ps with
    | nil => simpa using h p List.mem_cons_self
    | cons q qs => simp [List.intercalate_cons_cons]

theorem length_le_intercalate (d : α) (parts : List (List α)) :
    parts.length ≤ ([d].intercalate parts).length + 1 := by
  induction parts with
  | nil => simp
  | cons p ps ih =>
    cases ps with
    | nil => simp
    | cons q qs =>
      rw [List.intercalate_cons_cons]
      simp only [List.length_append, List.length_cons, List.length_nil] at *
      omega

section Fields

variable [DecidableEq α]

theorem not_mem_of_mem_splitOn {d : α} {xs part : List α} (h : part ∈ xs.splitOn d) : d ∉ part := by
  intro hd
  have hne := @mem_splitOnP _ (· == d) _ _ h d hd
  simp at hne

/-- Elements of a part are elements of the list that was cut. -/
theorem mem_of_mem_splitOn {d x : α} {xs part : List α} (h : part ∈ xs.splitOn d) (hx : x ∈ part) :
    x ∈ xs := by
  have hj : x ∈ [d].intercalate (xs.splitOn d) := by
    generalize xs.splitOn d = parts at h
    induction parts with
    | nil => simp at h
    | cons p ps ih =>
      cases ps with
      | nil => simp at h; simpa [← h] using hx
      | cons q qs =>
        rw [List.intercalate_cons_cons]
        rcases List.mem_cons.mp h with rfl | h
        · simp [hx]
        · simp [ih h]
  simpa using hj

/-- Cutting at a delimiter that is certainly there peels off the part before it. -/
theorem splitOn_cons_field {d : α} {xs : List α} (rest : List α) (h : d ∉ xs) :
    (xs ++ d :: rest).splitOn d = xs :: rest.splitOn d :=
  List.splitOn_append_cons_self_of_not_mem h rest

/-- A list and its parts determine each other. -/
theorem splitOn_eq_iff {d : α} {xs : List α} {parts : List (List α)} :
    xs.splitOn d = parts ↔ parts ≠ [] ∧ (∀ p ∈ parts, d ∉ p) ∧ xs = [d].intercalate parts := by
  constructor
  · rintro rfl
    exact ⟨List.splitOn_ne_nil d xs, fun p hp => not_mem_of_mem_splitOn hp, by simp⟩
  · rintro ⟨hne, hd, rfl⟩
    exact List.splitOn_intercalate d hd hne

/-- Gluing and cutting again gives the parts back exactly if they can be parts at all. -/
theorem splitOn_intercalate_iff {d : α} {parts : List (List α)} :
    ([d].intercalate parts).splitOn d = parts ↔ parts ≠ [] ∧ ∀ p ∈ parts, d ∉ p := by
  rw [splitOn_eq_iff]
  simp

theorem splitOn_injective {d : α} {xs ys : List α} (h : xs.splitOn d = ys.splitOn d) : xs = ys := by
  have hx : [d].intercalate (xs.splitOn d) = xs := List.intercalate_splitOn d
  rw [h, List.intercalate_splitOn] at hx
  exact hx.symm

omit [DecidableEq α] in
theorem mem_intercalate {d x : α} {parts : List (List α)} (h : x ∈ [d].intercalate parts) :
    x = d ∨ ∃ p ∈ parts, x ∈ p := by
  induction parts with
  | nil => simp at h
  | cons p ps ih =>
    cases ps with
    | nil => exact Or.inr ⟨p, List.mem_cons_self, by simpa using h⟩
    | cons q qs =>
      rw [List.intercalate_cons_cons] at h
      simp only [List.append_assoc, List.mem_append, List.mem_singleton] at h
      rcases h with h | h | h
      · exact Or.inr ⟨p, List.mem_cons_self, h⟩
      · exact Or.inl h
      · exact (ih h).imp id fun ⟨r, hr, hx⟩ => ⟨r, List.mem_cons_of_mem _ hr, hx⟩

/-- Parts that themselves contain the delimiter come apart further, each on its own. -/
theorem splitOn_intercalate_flatMap (d : α) {parts : List (List α)} (hne : parts ≠ []) :
    ([d].intercalate parts).splitOn d = parts.flatMap (List.splitOn d) := by
  induction parts with
  | nil => exact absurd rfl hne
  | cons p ps ih =>
    cases ps with
    | nil => simp
    | cons q qs =>
      rw [List.intercalate_cons_cons, List.append_assoc, List.singleton_append,
        List.splitOn_append_cons_self, ih (by simp)]
      rfl

end Fields

/-- The maximal nonempty runs of elements that are not blank. -/
def words (blank : α → Bool) (xs : List α) : List (List α) :=
  (xs.splitOnP blank).filter (fun w => !w.isEmpty)

@[simp] theorem words_nil : words blank [] = [] := by simp [words]

/-- A nonempty run followed by a blank is one word. -/
theorem words_append_blank {w : List α} {x : α} (rest : List α) (hne : w ≠ [])
    (hw : ∀ a ∈ w, blank a = false) (hx : blank x = true) :
    words blank (w ++ x :: rest) = w :: words blank rest := by
  rw [words, List.splitOnP_append_cons_of_forall_mem hw x hx, List.filter_cons_of_pos (by simpa using hne)]
  rfl

theorem words_singleton {w : List α} (hne : w ≠ []) (hw : ∀ a ∈ w, blank a = false) :
    words blank w = [w] := by
  rw [words, List.splitOnP_eq_singleton hw]
  simpa using hne

theorem words_intercalate {x : α} {ws : List (List α)} (hx : blank x = true)
    (hws : ∀ w ∈ ws, w ≠ [] ∧ ∀ a ∈ w, blank a = false) :
    words blank ([x].intercalate ws) = ws := by
  induction ws with
  | nil => simp
  | cons w ws ih =>
    obtain ⟨hne, hw⟩ := hws w List.mem_cons_self
    cases ws with
    | nil => simpa using words_singleton hne hw
    | cons w' ws' =>
      rw [List.intercalate_cons_cons, List.append_assoc, List.singleton_append,
        words_append_blank _ hne hw hx, ih fun v hv => hws v (List.mem_cons_of_mem _ hv)]

/-- Words are never empty and never contain a blank. -/
theorem length_le_of_mem_words {xs w : List α} (h : w ∈ words blank xs) : w.length ≤ xs.length :=
  length_le_of_mem_splitOnP (List.mem_filter.mp h).1

theorem of_mem_words {xs w : List α} (h : w ∈ words blank xs) :
    w ≠ [] ∧ ∀ a ∈ w, blank a = false := by
  obtain ⟨hm, hne⟩ := List.mem_filter.mp h
  exact ⟨by simpa using hne, mem_splitOnP hm⟩

end Delimited
