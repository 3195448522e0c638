import Mathlib.Data.List.Rotate

/-!
# Taking turns

Turn `i` over a list goes to its element `i` modulo the length. As many turns in a row as
the list is long reach every element once, wherever they start.
-/
namespace RoundRobin

variable {α : Type}

/-- Whose turn it is. -/
def turn (l : List α) (i : Nat) : Option α := l[i % l.length]?

/-- The turns from `start` on, `n` in a row. -/
def turns (l : List α) (start n : Nat) : List α := (List.range n).filterMap (fun i => turn l (start + i))

variable {l : List α}

theorem turn_of_ne_nil (h : l ≠ []) (i : Nat) : ∃ a, turn l i = some a :=
  ⟨_, List.getElem?_eq_getElem (Nat.mod_lt _ (List.length_pos_iff.mpr h))⟩

@[simp] theorem turns_zero (l : List α) (start : Nat) : turns l start 0 = [] := rfl

theorem turns_succ (l : List α) (start n : Nat) :
    turns l start (n + 1) = turns l start n ++ (turn l (start + n)).toList := by
  simp only [turns, List.range_succ, List.filterMap_append]
  cases hturn : turn l (start + n) with
  | none => simp [hturn]
  | some a => simp [hturn]

theorem turns_add (l : List α) (start m n : Nat) :
    turns l start (m + n) = turns l start m ++ turns l (start + m) n := by
  induction n with
  | zero => simp
  | succ n ih => rw [← Nat.add_assoc, turns_succ, ih, turns_succ, List.append_assoc, Nat.add_assoc]

theorem mem_of_mem_turns {start n : Nat} {a : α} (h : a ∈ turns l start n) : a ∈ l := by
  obtain ⟨i, -, hi⟩ := List.mem_filterMap.mp h
  exact List.mem_of_getElem? hi

theorem length_turns (h : l ≠ []) (start n : Nat) : (turns l start n).length = n := by
  induction n with
  | zero => rfl
  | succ n ih =>
    obtain ⟨a, ha⟩ := turn_of_ne_nil h (start + n)
    simp [turns_succ, ih, ha]

theorem getElem?_turns (h : l ≠ []) (start : Nat) {n i : Nat} (hi : i < n) :
    (turns l start n)[i]? = turn l (start + i) := by
  induction n with
  | zero => omega
  | succ n ih =>
    obtain ⟨a, ha⟩ := turn_of_ne_nil h (start + n)
    have hlen := length_turns h start n
    rw [turns_succ]
    by_cases hin : i < n
    · rw [List.getElem?_append_left (by omega), ih hin]
    · obtain rfl : i = n := by omega
      rw [List.getElem?_append_right (by omega), hlen, ha]
      simp

/-- One round is the list, rotated. -/
theorem turns_round (l : List α) (start : Nat) : turns l start l.length = l.rotate start := by
  by_cases h : l = []
  · simp [h]
  · refine List.ext_getElem? fun i => ?_
    by_cases hi : i < l.length
    · rw [getElem?_turns h start hi, List.getElem?_rotate hi, turn, Nat.add_comm]
    · rw [List.getElem?_eq_none (by rw [length_turns h]; omega), List.getElem?_eq_none (by simpa using hi)]

/-- One round reaches everybody once. -/
theorem turns_perm (l : List α) (start : Nat) : (turns l start l.length).Perm l := by
  rw [turns_round]
  exact l.rotate_perm start

theorem count_turns_rounds [DecidableEq α] (l : List α) (start c : Nat) (a : α) :
    (turns l start (c * l.length)).count a = c * l.count a := by
  induction c with
  | zero => simp
  | succ c ih => rw [Nat.succ_mul, turns_add, List.count_append, ih, (turns_perm l _).count_eq, Nat.succ_mul]

/-- A window of a run of turns is itself a run of turns. -/
theorem take_drop_turns (h : l ≠ []) (start : Nat) {n i k : Nat} (hik : i + k ≤ n) :
    ((turns l start n).drop i).take k = turns l (start + i) k := by
  obtain ⟨r, rfl⟩ := Nat.exists_eq_add_of_le hik
  rw [turns_add, turns_add, List.append_assoc, List.drop_left' (length_turns h _ _), List.take_left' (length_turns h _ _)]

end RoundRobin
