import Mathlib.Data.List.Basic
import Mathlib.Tactic.Common

/-!
# Values written one after another

A codec writes a value as a list and reads it off the front of a longer one.
Reading undoes writing whatever follows, and only what was written can be read.
So no written value starts with another one, and no cut value is read at all.
-/

structure FrontCodec (α β : Type) where
  write : α → List β
  read : List β → Option (α × List β)
  read_write : ∀ a rest, read (write a ++ rest) = some (a, rest)
  of_read : ∀ {input a rest}, read input = some (a, rest) → input = write a ++ rest

namespace FrontCodec

variable {α β : Type} (c : FrontCodec α β)

def writeAll (values : List α) : List β := values.flatMap c.write

@[simp] theorem writeAll_nil : c.writeAll [] = [] := rfl

@[simp] theorem writeAll_cons (a : α) (values : List α) : c.writeAll (a :: values) = c.write a ++ c.writeAll values :=
  rfl

variable {c}

/-- No written value starts with another one. -/
theorem eq_of_append {a b : α} {rest rest' : List β} (h : c.write a ++ rest = c.write b ++ rest') :
    a = b ∧ rest = rest' := by
  have hread := c.read_write a rest
  rw [h, c.read_write] at hread
  simp only [Option.some.injEq, Prod.mk.injEq] at hread
  exact ⟨hread.1.symm, hread.2.symm⟩

/-- Nothing is read where a value ends too early. -/
theorem read_cut {a : α} {k : Nat} (hk : k < (c.write a).length) : c.read ((c.write a).take k) = none := by
  by_contra hne
  obtain ⟨⟨b, rest⟩, hread⟩ := Option.ne_none_iff_exists'.mp hne
  have hcut := c.of_read hread
  have hwhole : c.write a ++ [] = c.write b ++ (rest ++ (c.write a).drop k) := by
    rw [← List.append_assoc, ← hcut, List.take_append_drop, List.append_nil]
  obtain ⟨-, hnil⟩ := eq_of_append hwhole
  have hlen := congrArg List.length hnil
  simp only [List.length_nil, List.length_append, List.length_drop] at hlen
  omega

end FrontCodec
