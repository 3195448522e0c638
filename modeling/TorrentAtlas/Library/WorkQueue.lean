import Mathlib.Data.List.Perm.Subperm
import Mathlib.Data.List.Nodup

/-!
# Workers on a queue

Workers take positions of a queue from a shared counter. Each thing they take is held by
one of them until it is finished or dropped, so the account adds up: what has been taken is
what is finished, dropped and held.
-/
namespace WorkQueue

variable {α β : Type}

/-- The counter, and what has become of the things taken. -/
structure Books (α : Type) where
  taken : Nat
  finished : List α
  dropped : List α
  held : List α

/-- Everything taken from the queue is accounted for, once. -/
def Accounted (queue : List α) (b : Books α) : Prop :=
  (queue.take b.taken).Perm (b.finished ++ (b.dropped ++ b.held))

variable {queue : List α} {b : Books α} {held : List α} {x : α}

theorem Accounted.pass (h : Accounted queue b) (hheld : held.Perm b.held) : Accounted queue { b with held } :=
  h.trans ((hheld.symm.append_left _).append_left _)

/-- Somebody takes the next thing. -/
theorem Accounted.take (h : Accounted queue b) (hx : queue[b.taken]? = some x) (hheld : held.Perm (x :: b.held)) :
    Accounted queue { b with taken := b.taken + 1, held } := by
  have hnext : queue.take (b.taken + 1) = queue.take b.taken ++ [x] := by rw [List.take_add_one, hx]; rfl
  change (queue.take (b.taken + 1)).Perm (b.finished ++ (b.dropped ++ held))
  rw [hnext]
  have hfront : (queue.take b.taken ++ [x]).Perm (x :: (b.finished ++ (b.dropped ++ b.held))) :=
    (List.perm_append_singleton _ _).trans (h.cons x)
  have hback : (x :: (b.finished ++ (b.dropped ++ b.held))).Perm (b.finished ++ (b.dropped ++ (x :: b.held))) := by
    rw [← List.append_assoc, ← List.append_assoc]
    exact List.perm_middle.symm
  exact hfront.trans (hback.trans ((hheld.symm.append_left _).append_left _))

/-- The counter moves past the end. -/
theorem Accounted.miss (h : Accounted queue b) (hend : queue[b.taken]? = none) :
    Accounted queue { b with taken := b.taken + 1 } := by
  have hnext : queue.take (b.taken + 1) = queue.take b.taken := by rw [List.take_add_one, hend]; exact List.append_nil _
  change (queue.take (b.taken + 1)).Perm _
  rw [hnext]
  exact h

theorem Accounted.finish (h : Accounted queue b) (hheld : b.held.Perm (x :: held)) :
    Accounted queue { b with finished := b.finished ++ [x], held } := by
  refine h.trans ?_
  change (b.finished ++ (b.dropped ++ b.held)).Perm (b.finished ++ [x] ++ (b.dropped ++ held))
  rw [List.append_assoc]
  refine List.Perm.append_left _ ((hheld.append_left _).trans ?_)
  exact List.perm_middle

theorem Accounted.drop (h : Accounted queue b) (hheld : b.held.Perm (x :: held)) :
    Accounted queue { b with dropped := b.dropped ++ [x], held } := by
  refine h.trans ?_
  change (b.finished ++ (b.dropped ++ b.held)).Perm (b.finished ++ (b.dropped ++ [x] ++ held))
  rw [List.append_assoc]
  exact (hheld.append_left _).append_left _

/-- Nothing is finished twice, nor finished and dropped. -/
theorem Accounted.nodup (h : Accounted queue b) (hqueue : queue.Nodup) :
    (b.finished ++ (b.dropped ++ b.held)).Nodup :=
  h.nodup_iff.mp (hqueue.sublist (List.take_sublist _ _))

theorem Accounted.length_le (h : Accounted queue b) :
    b.finished.length + (b.dropped.length + b.held.length) ≤ queue.length := by
  have hlen := h.length_eq
  simp only [List.length_append, List.length_take] at hlen
  omega

/-- When the counter is at the end, nothing is held and nothing was dropped, all is finished. -/
theorem Accounted.all (h : Accounted queue b) (hend : queue.length ≤ b.taken) (hdropped : b.dropped = [])
    (hheld : b.held = []) : queue.Perm b.finished := by
  have hall := h
  unfold Accounted at hall
  rwa [List.take_of_length_le hend, hdropped, hheld, List.append_nil, List.append_nil] at hall

/-- What is dropped is never finished. -/
theorem Accounted.missed (h : Accounted queue b) (hqueue : queue.Nodup) (hx : x ∈ b.dropped) :
    x ∈ queue ∧ x ∉ b.finished := by
  refine ⟨List.mem_of_mem_take (h.symm.subset ?_), fun hfinished => ?_⟩
  · exact List.mem_append_right _ (List.mem_append_left _ hx)
  · exact (List.disjoint_of_nodup_append (h.nodup hqueue)) hfinished (List.mem_append_left _ hx)

/-- One worker moves; the others hold what they held. -/
theorem held_set (f : β → Option α) {workers : List β} {k : Nat} {w : β} (hw : workers[k]? = some w) (w' : β) :
    ∃ rest, (workers.filterMap f).Perm ((f w).toList ++ rest) ∧
      ((workers.set k w').filterMap f).Perm ((f w').toList ++ rest) := by
  obtain ⟨hk, rfl⟩ := List.getElem?_eq_some_iff.mp hw
  have hsplit : ∀ v : β, ((workers.take k ++ v :: workers.drop (k + 1)).filterMap f).Perm
      ((f v).toList ++ ((workers.take k).filterMap f ++ (workers.drop (k + 1)).filterMap f)) := by
    intro v
    rw [List.filterMap_append, List.filterMap_cons]
    cases f v with
    | none => exact List.Perm.refl _
    | some a => exact List.perm_middle
  refine ⟨(workers.take k).filterMap f ++ (workers.drop (k + 1)).filterMap f, ?_, ?_⟩
  · have hself : workers = workers.take k ++ workers[k] :: workers.drop (k + 1) := by
      rw [← List.drop_eq_getElem_cons hk, List.take_append_drop]
    have hperm := hsplit workers[k]
    rwa [← hself] at hperm
  · rw [List.set_eq_take_append_cons_drop, if_pos hk]
    exact hsplit w'

section Moves

variable {f : β → Option α} {workers : List β} {k : Nat} {w w' : β}

theorem held_same (hw : workers[k]? = some w) (hsame : f w' = f w) :
    ((workers.set k w').filterMap f).Perm (workers.filterMap f) := by
  obtain ⟨rest, hbefore, hafter⟩ := held_set f hw w'
  rw [hsame] at hafter
  exact hafter.trans hbefore.symm

theorem held_gain (hw : workers[k]? = some w) (hnone : f w = none) (hsome : f w' = some x) :
    ((workers.set k w').filterMap f).Perm (x :: workers.filterMap f) := by
  obtain ⟨rest, hbefore, hafter⟩ := held_set f hw w'
  rw [hnone] at hbefore
  rw [hsome] at hafter
  exact hafter.trans (hbefore.symm.cons x)

theorem held_loss (hw : workers[k]? = some w) (hsome : f w = some x) (hnone : f w' = none) :
    (workers.filterMap f).Perm (x :: (workers.set k w').filterMap f) := by
  obtain ⟨rest, hbefore, hafter⟩ := held_set f hw w'
  rw [hsome] at hbefore
  rw [hnone] at hafter
  exact hbefore.trans (hafter.symm.cons x)

end Moves

end WorkQueue
