import Mathlib.Data.List.Basic
import Mathlib.Data.List.Induction
import Mathlib.Tactic.Common

/-!
# Runs of a deterministic machine

A machine takes a state and an input to a new state and an output. `events`
records a run: for each input the state it met, the output it produced and the
state it left. Invariants are proved once per step and hold along every run;
properties of the whole history are proved by induction on its last event.
-/

/-- One step of a run, with everything an observer could know about it. -/
structure Event (σ ι ο : Type) where
  before : σ
  input : ι
  output : ο
  after : σ

namespace Machine

variable {σ ι ο : Type} (step : σ → ι → σ × ο)

def run (s : σ) : List ι → σ
  | [] => s
  | i :: rest => run (step s i).1 rest

def event (s : σ) (i : ι) : Event σ ι ο := ⟨s, i, (step s i).2, (step s i).1⟩

def events (s : σ) : List ι → List (Event σ ι ο)
  | [] => []
  | i :: rest => event step s i :: events (step s i).1 rest

@[simp] theorem run_nil (s : σ) : run step s [] = s := rfl

@[simp] theorem run_cons (s : σ) (i : ι) (rest : List ι) : run step s (i :: rest) = run step (step s i).1 rest := rfl

theorem run_append (s : σ) (a b : List ι) : run step s (a ++ b) = run step (run step s a) b := by
  induction a generalizing s with
  | nil => rfl
  | cons i rest ih => exact ih (step s i).1

theorem run_concat (s : σ) (a : List ι) (i : ι) : run step s (a ++ [i]) = (step (run step s a) i).1 := by
  rw [run_append]
  rfl

theorem events_append (s : σ) (a b : List ι) :
    events step s (a ++ b) = events step s a ++ events step (run step s a) b := by
  induction a generalizing s with
  | nil => rfl
  | cons i rest ih => simp only [List.cons_append, events, run_cons, ih]

theorem events_concat (s : σ) (a : List ι) (i : ι) :
    events step s (a ++ [i]) = events step s a ++ [event step (run step s a) i] := by
  rw [events_append]
  rfl

/-- The states that runs from `s` lead to. -/
def Reachable (s t : σ) : Prop := ∃ inputs, run step s inputs = t

variable {step}

theorem Reachable.refl (s : σ) : Reachable step s s := ⟨[], rfl⟩

theorem Reachable.next {s t : σ} (h : Reachable step s t) (i : ι) : Reachable step s (step t i).1 := by
  obtain ⟨inputs, rfl⟩ := h
  exact ⟨inputs ++ [i], run_concat step s inputs i⟩

/-- What holds at the start and is kept by every step holds in every state a run reaches. -/
theorem invariant {P : σ → Prop} {s t : σ} (h₀ : P s) (hstep : ∀ s i, P s → P (step s i).1)
    (h : Reachable step s t) : P t := by
  obtain ⟨inputs, rfl⟩ := h
  induction inputs generalizing s with
  | nil => exact h₀
  | cons i rest ih => exact ih (hstep s i h₀)

/-- Every step of a run meets a condition on its input and the state it starts from. -/
def Along (step : σ → ι → σ × ο) (allowed : σ → ι → Prop) (s : σ) : List ι → Prop
  | [] => True
  | i :: rest => allowed s i ∧ Along step allowed (step s i).1 rest

instance decidableAlong {allowed : σ → ι → Prop} [∀ s i, Decidable (allowed s i)] :
    ∀ (s : σ) (inputs : List ι), Decidable (Along step allowed s inputs)
  | _, [] => .isTrue trivial
  | s, i :: rest => @instDecidableAnd _ _ inferInstance (decidableAlong (step s i).1 rest)

/-- A condition on the inputs alone. -/
theorem along_of_forall {allowed : σ → ι → Prop} {s : σ} {inputs : List ι} (h : ∀ i ∈ inputs, ∀ t, allowed t i) :
    Along step allowed s inputs := by
  induction inputs generalizing s with
  | nil => trivial
  | cons i rest ih => exact ⟨h i List.mem_cons_self s, ih fun j hj => h j (List.mem_cons_of_mem _ hj)⟩

theorem Along.and {p q : σ → ι → Prop} {s : σ} {inputs : List ι} (hp : Along step p s inputs)
    (hq : Along step q s inputs) : Along step (fun s i => p s i ∧ q s i) s inputs := by
  induction inputs generalizing s with
  | nil => trivial
  | cons i rest ih => exact ⟨⟨hp.1, hq.1⟩, ih hp.2 hq.2⟩

/-- What every allowed step keeps holds at the end of every run of allowed steps. -/
theorem invariant_along {allowed : σ → ι → Prop} {P : σ → Prop} {s : σ} {inputs : List ι} (h₀ : P s)
    (hstep : ∀ s i, P s → allowed s i → P (step s i).1) (h : Along step allowed s inputs) : P (run step s inputs) := by
  induction inputs generalizing s with
  | nil => exact h₀
  | cons i rest ih => exact ih (hstep s i h₀ h.1) h.2

/-- Every event of a run of allowed steps starts from a state with the invariant. -/
theorem events_along {allowed : σ → ι → Prop} {P : σ → Prop} {s : σ} {inputs : List ι} (h₀ : P s)
    (hstep : ∀ s i, P s → allowed s i → P (step s i).1) (h : Along step allowed s inputs) :
    ∀ e ∈ events step s inputs, P e.before ∧ allowed e.before e.input ∧ e = event step e.before e.input := by
  induction inputs generalizing s with
  | nil => simp [events]
  | cons i rest ih =>
    intro e he
    rcases List.mem_cons.mp he with rfl | he
    · exact ⟨h₀, h.1, rfl⟩
    · exact ih (hstep s i h₀ h.1) h.2 e he

/-- Two runs on the same inputs whose states stay related, and related states answer alike. -/
theorem outputs_eq {allowed : σ → ι → Prop} {R : σ → σ → Prop} {s t : σ} {inputs : List ι} (h₀ : R s t)
    (hstep : ∀ s t i, R s t → allowed s i → (step s i).2 = (step t i).2 ∧ R (step s i).1 (step t i).1)
    (h : Along step allowed s inputs) :
    (events step s inputs).map Event.output = (events step t inputs).map Event.output := by
  induction inputs generalizing s t with
  | nil => rfl
  | cons i rest ih =>
    obtain ⟨hout, hnext⟩ := hstep s t i h₀ h.1
    simp only [events, List.map_cons, ih hnext h.2, event, hout]

/-- Induction on the last event of a run, with the history so far and the state it led to. -/
theorem history {P : List (Event σ ι ο) → σ → Prop} {s : σ} (h₀ : P [] s)
    (hstep : ∀ past t i, Reachable step s t → P past t → P (past ++ [event step t i]) (step t i).1)
    (inputs : List ι) : P (events step s inputs) (run step s inputs) := by
  induction inputs using List.reverseRecOn with
  | nil => exact h₀
  | append_singleton rest i ih =>
    rw [events_concat, run_concat]
    exact hstep _ _ i ⟨rest, rfl⟩ ih

/-- Induction on the last event of a run of allowed steps. -/
theorem history_along {allowed : σ → ι → Prop} {P : List (Event σ ι ο) → σ → Prop} {s : σ} {inputs : List ι}
    (h₀ : P [] s) (hstep : ∀ past t i, P past t → allowed t i → P (past ++ [event step t i]) (step t i).1)
    (h : Along step allowed s inputs) : P (events step s inputs) (run step s inputs) := by
  have hgeneral : ∀ past, P past s → P (past ++ events step s inputs) (run step s inputs) := by
    clear h₀
    induction inputs generalizing s with
    | nil => simp [events]
    | cons i rest ih =>
      intro past hpast
      have hnext := ih h.2 (past ++ [event step s i]) (hstep past s i hpast h.1)
      rwa [List.append_assoc, List.singleton_append] at hnext
  exact hgeneral [] h₀

theorem input_mem {s : σ} {inputs : List ι} {e : Event σ ι ο} (h : e ∈ events step s inputs) : e.input ∈ inputs := by
  induction inputs generalizing s with
  | nil => simp [events] at h
  | cons i rest ih =>
    rcases List.mem_cons.mp h with rfl | h
    · exact List.mem_cons_self
    · exact List.mem_cons_of_mem _ (ih h)

/-- An event of a run, with the states and the history before it. -/
theorem events_split {s : σ} {inputs : List ι} {past future : List (Event σ ι ο)} {e : Event σ ι ο}
    (h : events step s inputs = past ++ e :: future) :
    ∃ a i b, inputs = a ++ i :: b ∧ past = events step s a ∧ e = event step (run step s a) i ∧
      future = events step e.after b := by
  induction past generalizing s inputs with
  | nil =>
    cases inputs with
    | nil => simp [events] at h
    | cons i rest =>
      simp only [events, List.nil_append, List.cons.injEq] at h
      obtain ⟨rfl, rfl⟩ := h
      exact ⟨[], i, rest, rfl, rfl, rfl, rfl⟩
  | cons e₀ past ih =>
    cases inputs with
    | nil => simp [events] at h
    | cons i rest =>
      simp only [events, List.cons_append, List.cons.injEq] at h
      obtain ⟨rfl, h⟩ := h
      obtain ⟨a, j, b, rfl, rfl, rfl, rfl⟩ := ih h
      exact ⟨i :: a, j, b, rfl, rfl, rfl, rfl⟩

end Machine
