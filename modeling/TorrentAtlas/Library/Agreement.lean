import Mathlib.Data.List.Basic
import Mathlib.Tactic.Common

/-!
# Agreement with a target

A sequence that is filled in piece by piece agrees with its target at more and more
positions. `Toward` is the relation between two states of it that loses no
agreement; everything known about filled ranges survives along it.
-/

/-- `s` holds at `j` what `target` holds there; nothing, if `target` has ended. -/
def AgreesAt {α : Type} (target s : List α) (j : Nat) : Prop := s[j]? = target[j]?

/-- Agreement on the positions from `a` up to `b`. -/
def AgreesOn {α : Type} (target s : List α) (a b : Nat) : Prop := ∀ j, a ≤ j → j < b → AgreesAt target s j

/-- Wherever `s` agrees with the target, `s'` does. -/
def Toward {α : Type} (target s s' : List α) : Prop := ∀ j, AgreesAt target s j → AgreesAt target s' j

namespace Toward

variable {α : Type} {target s s' s'' : List α}

theorem refl (target s : List α) : Toward target s s := fun _ h => h

theorem trans (h : Toward target s s') (h' : Toward target s' s'') : Toward target s s'' := fun j hj => h' j (h j hj)

theorem agreesOn {a b : Nat} (h : Toward target s s') (hs : AgreesOn target s a b) : AgreesOn target s' a b :=
  fun j ha hb => h j (hs j ha hb)

end Toward

namespace AgreesOn

variable {α : Type} {target s : List α} {a b c : Nat}

theorem empty (h : b ≤ a) : AgreesOn target s a b := fun _ ha hb => absurd hb (by omega)

theorem join (h : AgreesOn target s a b) (h' : AgreesOn target s b c) : AgreesOn target s a c := by
  intro j ha hc
  by_cases hj : j < b
  · exact h j ha hj
  · exact h' j (by omega) hc

/-- Agreement on a range is equality of the slices. -/
theorem iff_slice {n : Nat} : AgreesOn target s a (a + n) ↔ (s.drop a).take n = (target.drop a).take n := by
  constructor
  · intro h
    refine List.ext_getElem? fun k => ?_
    simp only [List.getElem?_take, List.getElem?_drop]
    split
    · exact h (a + k) (by omega) (by omega)
    · rfl
  · intro h j ha hb
    have hk := congrArg (·[j - a]?) h
    simp only [List.getElem?_take, List.getElem?_drop, if_pos (show j - a < n by omega)] at hk
    rwa [show a + (j - a) = j by omega] at hk

end AgreesOn

theorem eq_of_agreesAt {α : Type} {target s : List α} (h : ∀ j, AgreesAt target s j) : s = target :=
  List.ext_getElem? h
