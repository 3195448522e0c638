import TorrentAtlas.Library.Ranking

/-!
# A machine inside another

`f` shows the state of a machine within a larger one, and `g` what an input of the larger one
means to it. Where the steps agree, every run of the larger machine is one of the smaller.
-/
namespace Machine

variable {σ ι ο σ' ι' ο' : Type} {step : σ → ι → σ × ο} {step' : σ' → ι' → σ' × ο'} {f : σ → σ'} {g : σ → ι → ι'}

/-- What a run means to the inner machine. -/
def through (step : σ → ι → σ × ο) (g : σ → ι → ι') (s : σ) : List ι → List ι'
  | [] => []
  | i :: rest => g s i :: through step g (step s i).1 rest

theorem through_append {s : σ} {a b : List ι} :
    through step g s (a ++ b) = through step g s a ++ through step g (run step s a) b := by
  induction a generalizing s with
  | nil => rfl
  | cons i rest ih => simp only [List.cons_append, through, ih, run_cons]

/-- What the rounds of a run mean to the inner machine. -/
def roundsThrough (step : σ → ι → σ × ο) (g : σ → ι → ι') (s : σ) : List (List ι) → List (List ι')
  | [] => []
  | round :: rest => through step g s round :: roundsThrough step g (run step s round) rest

theorem flatten_roundsThrough {s : σ} {rounds : List (List ι)} :
    (roundsThrough step g s rounds).flatten = through step g s rounds.flatten := by
  induction rounds generalizing s with
  | nil => rfl
  | cons round rest ih => rw [roundsThrough, List.flatten_cons, List.flatten_cons, through_append, ih]

@[simp] theorem length_roundsThrough {s : σ} {rounds : List (List ι)} :
    (roundsThrough step g s rounds).length = rounds.length := by
  induction rounds generalizing s with
  | nil => rfl
  | cons round rest ih => rw [roundsThrough, List.length_cons, ih, List.length_cons]

/-- The steps agree. -/
def Inner (step : σ → ι → σ × ο) (step' : σ' → ι' → σ' × ο') (f : σ → σ') (g : σ → ι → ι') : Prop :=
  ∀ s i, (step' (f s) (g s i)).1 = f (step s i).1

theorem Inner.run_through (h : Inner step step' f g) {s : σ} {inputs : List ι} :
    run step' (f s) (through step g s inputs) = f (run step s inputs) := by
  induction inputs generalizing s with
  | nil => rfl
  | cons i rest ih => rw [through, run_cons, h s i, ih, run_cons]

theorem Inner.along_through (h : Inner step step' f g) {allowed : σ → ι → Prop} {allowed' : σ' → ι' → Prop}
    {invariant : σ → Prop} {s : σ} {inputs : List ι} (hs : invariant s)
    (hkeeps : ∀ s i, invariant s → allowed s i → invariant (step s i).1)
    (hallowed : ∀ s i, invariant s → allowed s i → allowed' (f s) (g s i)) (halong : Along step allowed s inputs) :
    Along step' allowed' (f s) (through step g s inputs) := by
  induction inputs generalizing s with
  | nil => trivial
  | cons i rest ih =>
    refine ⟨hallowed s i hs halong.1, ?_⟩
    rw [h s i]
    exact ih (hkeeps s i hs halong.1) halong.2

/-- An event of the larger run is one of the inner run, at the same place. -/
theorem Inner.mem_events (h : Inner step step' f g) {s : σ} {inputs : List ι} {e : Event σ ι ο}
    (he : e ∈ events step s inputs) :
    event step' (f e.before) (g e.before e.input) ∈ events step' (f s) (through step g s inputs) := by
  induction inputs generalizing s with
  | nil => simp [events] at he
  | cons i rest ih =>
    rw [through, events]
    rcases List.mem_cons.mp he with rfl | he
    · exact List.mem_cons_self
    · refine List.mem_cons_of_mem _ ?_
      rw [h s i]
      exact ih he

theorem Inner.rounds_through (h : Inner step step' f g) {fair : List (Event σ ι ο) → Prop}
    {fair' : List (Event σ' ι' ο') → Prop} {s : σ} {rounds : List (List ι)}
    (hfair : ∀ s inputs, fair (events step s inputs) → fair' (events step' (f s) (through step g s inputs)))
    (hrounds : Rounds step fair s rounds) : Rounds step' fair' (f s) (roundsThrough step g s rounds) := by
  induction rounds generalizing s with
  | nil => trivial
  | cons round rest ih =>
    refine ⟨hfair s round hrounds.1, ?_⟩
    rw [h.run_through]
    exact ih hrounds.2

end Machine
