import Mathlib.Algebra.Ring.Nat
import TorrentAtlas.Library.Machine

/-!
# Machines that run down

A rank that every change of a state lowers bounds the number of changes in a run. Where,
moreover, every round of a run changes the state until the machine is done, a run of enough
rounds ends done. What counts as a change is up to `shown`, the part of the state looked at.
-/
namespace Machine

variable {σ ι ο τ : Type} {step : σ → ι → σ × ο}

/-- How many steps of a run change what is shown. -/
def changes [DecidableEq τ] (step : σ → ι → σ × ο) (shown : σ → τ) (s : σ) : List ι → Nat
  | [] => 0
  | i :: rest => (if shown (step s i).1 = shown s then 0 else 1) + changes step shown (step s i).1 rest

/-- Under the invariant, an allowed step that changes what is shown lowers the rank, and none raises it. -/
structure RunsDown (step : σ → ι → σ × ο) (allowed : σ → ι → Prop) (invariant : σ → Prop) (shown : σ → τ)
    (rank : σ → Nat) : Prop where
  keeps : ∀ s i, invariant s → allowed s i → invariant (step s i).1
  lowers : ∀ s i, invariant s → allowed s i →
    shown (step s i).1 = shown s ∧ rank (step s i).1 ≤ rank s ∨ rank (step s i).1 < rank s

theorem Along.append {allowed : σ → ι → Prop} {s : σ} {a b : List ι} :
    Along step allowed s (a ++ b) ↔ Along step allowed s a ∧ Along step allowed (run step s a) b := by
  induction a generalizing s with
  | nil => simp [Along]
  | cons i rest ih => simp only [List.cons_append, Along, run_cons, ih, and_assoc]

/-- A run in which no event changes what is shown shows the same throughout. -/
theorem shown_eq (shown : σ → τ) {s : σ} {inputs : List ι}
    (h : ∀ e ∈ events step s inputs, shown e.after = shown e.before) :
    ∀ e ∈ events step s inputs, e = event step e.before e.input ∧ shown e.before = shown s := by
  induction inputs generalizing s with
  | nil => simp [events]
  | cons i rest ih =>
    have hfirst : shown (step s i).1 = shown s := h (event step s i) List.mem_cons_self
    intro e he
    rcases List.mem_cons.mp he with rfl | he
    · exact ⟨rfl, rfl⟩
    · obtain ⟨hevent, hbefore⟩ := ih (fun e he => h e (List.mem_cons_of_mem _ he)) e he
      exact ⟨hevent, hbefore.trans hfirst⟩

variable {allowed : σ → ι → Prop} {invariant : σ → Prop} {shown : σ → τ} {rank : σ → Nat}

/-- The changes of a run are paid for by the rank. -/
theorem RunsDown.changes_le [DecidableEq τ] (h : RunsDown step allowed invariant shown rank) {s : σ} {inputs : List ι}
    (hs : invariant s) (halong : Along step allowed s inputs) :
    changes step shown s inputs + rank (run step s inputs) ≤ rank s := by
  induction inputs generalizing s with
  | nil => simp [changes]
  | cons i rest ih =>
    have hrest := ih (h.keeps s i hs halong.1) halong.2
    rw [changes, run_cons]
    rcases h.lowers s i hs halong.1 with ⟨hsame, hle⟩ | hlower
    · rw [if_pos hsame]
      omega
    · split <;> omega

/-- The rank never rises along a run, and a run with a change lowers it. -/
theorem RunsDown.rank_le (h : RunsDown step allowed invariant shown rank) {s : σ} {inputs : List ι} (hs : invariant s)
    (halong : Along step allowed s inputs) : rank (run step s inputs) ≤ rank s ∧
      ((∃ e ∈ events step s inputs, shown e.after ≠ shown e.before) → rank (run step s inputs) < rank s) := by
  induction inputs generalizing s with
  | nil => exact ⟨Nat.le_refl _, by simp [events]⟩
  | cons i rest ih =>
    obtain ⟨hle, hlt⟩ := ih (h.keeps s i hs halong.1) halong.2
    rw [run_cons]
    rcases h.lowers s i hs halong.1 with ⟨hsame, hlow⟩ | hlower
    · refine ⟨Nat.le_trans hle hlow, ?_⟩
      rintro ⟨e, he, hchange⟩
      rcases List.mem_cons.mp he with rfl | he
      · exact absurd hsame hchange
      · exact Nat.lt_of_lt_of_le (hlt ⟨e, he, hchange⟩) hlow
    · exact ⟨by omega, fun _ => by omega⟩

/-- A run cut into rounds, each of which has what `fair` asks of the events of a round. -/
def Rounds (step : σ → ι → σ × ο) (fair : List (Event σ ι ο) → Prop) (s : σ) : List (List ι) → Prop
  | [] => True
  | round :: rest => fair (events step s round) ∧ Rounds step fair (run step s round) rest

instance decidableRounds {fair : List (Event σ ι ο) → Prop} [∀ round, Decidable (fair round)] :
    ∀ (s : σ) (rounds : List (List ι)), Decidable (Rounds step fair s rounds)
  | _, [] => .isTrue trivial
  | s, round :: rest => @instDecidableAnd _ _ inferInstance (decidableRounds (run step s round) rest)

theorem Rounds.replicate {fair : List (Event σ ι ο) → Prop} {s : σ} {round : List ι}
    (hfair : fair (events step s round))
    (hsame : run step s round = s) (n : Nat) : Rounds step fair s (List.replicate n round) := by
  induction n with
  | zero => trivial
  | succ n ih => exact ⟨hfair, by rwa [hsame]⟩

theorem Along.replicate {allowed : σ → ι → Prop} {s : σ} {round : List ι} (halong : Along step allowed s round)
    (hsame : run step s round = s) (n : Nat) : Along step allowed s (List.replicate n round).flatten := by
  induction n with
  | zero => trivial
  | succ n ih =>
    rw [List.replicate_succ, List.flatten_cons]
    refine Along.append.mpr ⟨halong, ?_⟩
    rwa [hsame]

/-- Where every fair round without a change finds the machine done, more fair rounds than the rank end done. -/
theorem RunsDown.ends (h : RunsDown step allowed invariant shown rank) {fair : List (Event σ ι ο) → Prop}
    {done : σ → Prop} (hdone : ∀ s i, invariant s → allowed s i → done s → done (step s i).1)
    (hstuck : ∀ s inputs, invariant s → Along step allowed s inputs → fair (events step s inputs) →
      (∀ e ∈ events step s inputs, shown e.after = shown e.before) → done s)
    {s : σ} {rounds : List (List ι)} (hs : invariant s) (halong : Along step allowed s rounds.flatten)
    (hfair : Rounds step fair s rounds) (hmany : rank s < rounds.length) : done (run step s rounds.flatten) := by
  have hstays : ∀ s inputs, invariant s → Along step allowed s inputs → done s → done (run step s inputs) := by
    intro s inputs hs halong hfirst
    exact (invariant_along (P := fun t => invariant t ∧ done t) ⟨hs, hfirst⟩
      (fun t i ht hi => ⟨h.keeps t i ht.1 hi, hdone t i ht.1 hi ht.2⟩) halong).2
  induction rounds generalizing s with
  | nil => simp at hmany
  | cons round rest ih =>
    rw [List.flatten_cons] at halong ⊢
    obtain ⟨hround, hrest⟩ := Along.append.mp halong
    by_cases hchange : ∃ e ∈ events step s round, shown e.after ≠ shown e.before
    · have hlower := (h.rank_le hs hround).2 hchange
      rw [List.length_cons] at hmany
      rw [run_append]
      exact ih (invariant_along hs h.keeps hround) hrest hfair.2 (by omega)
    · have hsame : ∀ e ∈ events step s round, shown e.after = shown e.before := by
        intro e he
        by_contra hne
        exact hchange ⟨e, he, hne⟩
      exact hstays s _ hs halong (hstuck s round hs hround hfair.1 hsame)

/-- One member of a pool moves: the sum changes by what it changes. -/
theorem sum_map_set {α : Type} (f : α → Nat) {pool : List α} {k : Nat} {a : α} (ha : pool[k]? = some a) (b : α) :
    ((pool.set k b).map f).sum + f a = (pool.map f).sum + f b := by
  induction pool generalizing k with
  | nil => simp at ha
  | cons head rest ih =>
    cases k with
    | zero =>
      obtain rfl : head = a := by simpa using ha
      simp only [List.set_cons_zero, List.map_cons, List.sum_cons]
      omega
    | succ k =>
      have hrest := ih (k := k) (by simpa using ha)
      simp only [List.set_cons_succ, List.map_cons, List.sum_cons]
      omega

end Machine
