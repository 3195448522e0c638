import Mathlib.Logic.Function.Basic
import TorrentAtlas.Library.Machine

/-!
# Data behind locks

An operation takes one lock, accesses the data behind it step by step and releases the lock.
Threads run programs made of operations. However the accesses of the threads interleave, a run
looks like one in which every operation happens at once, at the moment when it takes its lock.
-/
namespace Monitor

/-- What an operation does under its lock: accesses that may change the data and go on by what they found. -/
inductive Body (δ α : Type) where
  | done (result : α)
  | access (change : δ → δ) (next : δ → Body δ α)

/-- All accesses at once. -/
def Body.exec {δ α : Type} : Body δ α → δ → δ × α
  | done result, d => (d, result)
  | access change next, d => (next d).exec (change d)

/-- The locks with their data, and the operations with their lock, result and effect. -/
structure Interface where
  Lock : Type
  Data : Lock → Type
  Op : Type
  lock : Op → Lock
  Result : Op → Type
  effect : (o : Op) → Data (lock o) → Data (lock o) × Result o

/-- Bodies that have the effects of the operations. -/
structure Implementation (I : Interface) where
  body : (o : I.Op) → Body (I.Data (I.lock o)) (I.Result o)
  exec_body : ∀ o d, (body o).exec d = I.effect o d

/-- A thread between operations. -/
inductive Program (I : Interface) (α : Type) where
  | done (result : α)
  | call (o : I.Op) (next : I.Result o → Program I α)

/-- A job gets a thread, or a thread takes a step. -/
inductive Action (ι : Type) where
  | spawn (job : ι)
  | run (k : Nat)
  deriving DecidableEq, Repr

def Action.job? {ι : Type} : Action ι → Option ι
  | spawn job => some job
  | run _ => none

section Machines

variable {I : Interface} [DecidableEq I.Lock] {ι α : Type} (program : ι → Program I α)

/-- The machine in which an operation is one step. -/
structure Atomic (I : Interface) (α : Type) where
  data : ∀ l, I.Data l
  threads : List (Program I α)

def Atomic.step (s : Atomic I α) : Action ι → Atomic I α × Unit
  | .spawn job => ({ s with threads := s.threads ++ [program job] }, ())
  | .run k =>
    match s.threads[k]? with
    | some (.call o next) =>
      let effect := I.effect o (s.data (I.lock o))
      (⟨Function.update s.data (I.lock o) effect.1, s.threads.set k (next effect.2)⟩, ())
    | _ => (s, ())

/-- A thread between operations or inside of one. -/
inductive Thread (I : Interface) (α : Type) where
  | outside (program : Program I α)
  | inside (o : I.Op) (body : Body (I.Data (I.lock o)) (I.Result o)) (next : I.Result o → Program I α)

/-- The machine in which every access is a step. -/
structure Locked (I : Interface) (α : Type) where
  data : ∀ l, I.Data l
  holder : I.Lock → Option Nat
  threads : List (Thread I α)

namespace Locked

variable (m : Implementation I) (s : Locked I α)

/-- One step of a thread; it waits as long as the lock it needs is held. -/
def runStep (k : Nat) : Locked I α :=
  match s.threads[k]? with
  | some (.outside (.call o next)) =>
    if s.holder (I.lock o) = none then
      { s with
        holder := Function.update s.holder (I.lock o) (some k)
        threads := s.threads.set k (.inside o (m.body o) next) }
    else s
  | some (.inside o (.access change more) next) =>
    { s with
      data := Function.update s.data (I.lock o) (change (s.data (I.lock o)))
      threads := s.threads.set k (.inside o (more (s.data (I.lock o))) next) }
  | some (.inside o (.done result) next) =>
    { s with
      holder := Function.update s.holder (I.lock o) none
      threads := s.threads.set k (.outside (next result)) }
  | _ => s

def step : Action ι → Locked I α × Unit
  | .spawn job => ({ s with threads := s.threads ++ [.outside (program job)] }, ())
  | .run k => (s.runStep m k, ())

/-- The thread is not done, and does not have to wait. -/
def enabled (k : Nat) : Bool :=
  match s.threads[k]? with
  | some (.outside (.call o _)) => (s.holder (I.lock o)).isNone
  | some (.inside _ _ _) => true
  | _ => false

/-- The action is one of the atomic machine: it starts a thread or takes a lock. -/
def counts : Action ι → Bool
  | .spawn _ => true
  | .run k =>
    match s.threads[k]? with
    | some (.outside (.call o _)) => (s.holder (I.lock o)).isNone
    | _ => false

/-- The atomic actions of a run, in their order. -/
def linear : Locked I α → List (Action ι) → List (Action ι)
  | _, [] => []
  | s, x :: rest => (if s.counts x then [x] else []) ++ linear (s.step program m x).1 rest

end Locked

/-- The atomic machine is ahead of the other one by what is left of the operations under way. -/
structure Simulates (s : Locked I α) (a : Atomic I α) : Prop where
  length : a.threads.length = s.threads.length
  outside : ∀ (k : Nat) p, s.threads[k]? = some (.outside p) → a.threads[k]? = some p
  inside : ∀ (k : Nat) o body next, s.threads[k]? = some (.inside o body next) → s.holder (I.lock o) = some k ∧
    a.threads[k]? = some (next (body.exec (s.data (I.lock o))).2) ∧
    a.data (I.lock o) = (body.exec (s.data (I.lock o))).1
  held : ∀ l k, s.holder l = some k → ∃ o body next, s.threads[k]? = some (.inside o body next) ∧ I.lock o = l
  free : ∀ l, s.holder l = none → a.data l = s.data l

variable {program} {m : Implementation I} {s : Locked I α} {a : Atomic I α}

theorem Locked.linear_append {xs ys : List (Action ι)} : Locked.linear program m s (xs ++ ys) =
    Locked.linear program m s xs ++ Locked.linear program m (Machine.run (Locked.step program m) s xs) ys := by
  induction xs generalizing s with
  | nil => rfl
  | cons x rest ih => simp only [List.cons_append, linear, ih, List.append_assoc, Machine.run_cons]

/-- A thread that changes its own entry, as seen by the others. -/
theorem getElem?_set_cases {β : Type} {l : List β} {k j : Nat} {b c : β} (hk : k < l.length)
    (h : (l.set k b)[j]? = some c) : j = k ∧ c = b ∨ j ≠ k ∧ l[j]? = some c := by
  by_cases hj : j = k
  · subst hj
    rw [List.getElem?_set_self hk] at h
    exact Or.inl ⟨rfl, (Option.some.inj h).symm⟩
  · rw [List.getElem?_set_ne (Ne.symm hj)] at h
    exact Or.inr ⟨hj, h⟩

/-- Taking a lock is the atomic operation. -/
theorem Simulates.take (h : Simulates s a) {k : Nat} {o : I.Op} {next : I.Result o → Program I α}
    (hk : s.threads[k]? = some (.outside (.call o next))) (hfree : s.holder (I.lock o) = none) :
    Simulates { s with
        holder := Function.update s.holder (I.lock o) (some k)
        threads := s.threads.set k (.inside o (m.body o) next) }
      ⟨Function.update a.data (I.lock o) (I.effect o (a.data (I.lock o))).1,
        a.threads.set k (next (I.effect o (a.data (I.lock o))).2)⟩ := by
  have hlt := (List.getElem?_eq_some_iff.mp hk).1
  have hlt' : k < a.threads.length := h.length ▸ hlt
  have hdata := h.free _ hfree
  refine ⟨?_, fun j p hj => ?_, fun j o' body next' hj => ?_, fun l j hl => ?_, fun l hl => ?_⟩
  · rw [List.length_set, List.length_set, h.length]
  · rcases getElem?_set_cases hlt hj with ⟨-, hne⟩ | ⟨hne, hold⟩
    · simp at hne
    · rw [List.getElem?_set_ne (Ne.symm hne)]
      exact h.outside j p hold
  · rcases getElem?_set_cases hlt hj with ⟨rfl, hnew⟩ | ⟨hne, hold⟩
    · cases hnew
      dsimp only
      rw [Function.update_self, Function.update_self, List.getElem?_set_self hlt', m.exec_body, hdata]
      exact ⟨rfl, rfl, rfl⟩
    · obtain ⟨hholder, hthread, hahead⟩ := h.inside j o' body next' hold
      have hother : I.lock o' ≠ I.lock o := by
        intro hsame
        rw [hsame, hfree] at hholder
        simp at hholder
      dsimp only
      rw [Function.update_of_ne hother, Function.update_of_ne hother, List.getElem?_set_ne (Ne.symm hne)]
      exact ⟨hholder, hthread, hahead⟩
  · by_cases hsame : l = I.lock o
    · subst hsame
      simp only [Function.update_self, Option.some.injEq] at hl
      subst hl
      exact ⟨o, m.body o, next, List.getElem?_set_self hlt, rfl⟩
    · simp only [Function.update_of_ne hsame] at hl
      obtain ⟨o', body, next', hold, hlock⟩ := h.held l j hl
      have hne : j ≠ k := by
        intro hsame'
        rw [hsame', hk] at hold
        simp at hold
      exact ⟨o', body, next', by rw [List.getElem?_set_ne (Ne.symm hne)]; exact hold, hlock⟩
  · by_cases hsame : l = I.lock o
    · subst hsame
      simp at hl
    · simp only [Function.update_of_ne hsame] at hl ⊢
      exact h.free l hl

/-- An access under a lock is nothing to the atomic machine. -/
theorem Simulates.access (h : Simulates s a) {k : Nat} {o : I.Op} {change : I.Data (I.lock o) → I.Data (I.lock o)}
    {more : I.Data (I.lock o) → Body (I.Data (I.lock o)) (I.Result o)} {next : I.Result o → Program I α}
    (hk : s.threads[k]? = some (.inside o (.access change more) next)) :
    Simulates { s with
        data := Function.update s.data (I.lock o) (change (s.data (I.lock o)))
        threads := s.threads.set k (.inside o (more (s.data (I.lock o))) next) } a := by
  have hlt := (List.getElem?_eq_some_iff.mp hk).1
  obtain ⟨hholder, hthread, hahead⟩ := h.inside k o _ next hk
  refine ⟨?_, fun j p hj => ?_, fun j o' body next' hj => ?_, fun l j hl => ?_, fun l hl => ?_⟩
  · rw [List.length_set, h.length]
  · rcases getElem?_set_cases hlt hj with ⟨-, hne⟩ | ⟨-, hold⟩
    · simp at hne
    · exact h.outside j p hold
  · rcases getElem?_set_cases hlt hj with ⟨rfl, hnew⟩ | ⟨hne, hold⟩
    · cases hnew
      dsimp only
      rw [Function.update_self]
      exact ⟨hholder, hthread, hahead⟩
    · obtain ⟨hholder', hthread', hahead'⟩ := h.inside j o' body next' hold
      have hother : I.lock o' ≠ I.lock o := by
        intro hsame
        rw [hsame, hholder] at hholder'
        exact hne (Option.some.inj hholder').symm
      dsimp only
      rw [Function.update_of_ne hother]
      exact ⟨hholder', hthread', hahead'⟩
  · obtain ⟨o', body, next', hold, hlock⟩ := h.held l j hl
    by_cases hj : j = k
    · subst hj
      rw [hk] at hold
      cases hold
      exact ⟨o, _, next, List.getElem?_set_self hlt, hlock⟩
    · exact ⟨o', body, next', by rw [List.getElem?_set_ne (Ne.symm hj)]; exact hold, hlock⟩
  · have hother : l ≠ I.lock o := by
      intro hsame
      rw [hsame, hholder] at hl
      simp at hl
    simp only [Function.update_of_ne hother]
    exact h.free l hl

/-- Nor is the release. -/
theorem Simulates.release (h : Simulates s a) {k : Nat} {o : I.Op} {result : I.Result o}
    {next : I.Result o → Program I α} (hk : s.threads[k]? = some (.inside o (.done result) next)) :
    Simulates { s with
        holder := Function.update s.holder (I.lock o) none
        threads := s.threads.set k (.outside (next result)) } a := by
  have hlt := (List.getElem?_eq_some_iff.mp hk).1
  obtain ⟨hholder, hthread, hahead⟩ := h.inside k o _ next hk
  refine ⟨?_, fun j p hj => ?_, fun j o' body next' hj => ?_, fun l j hl => ?_, fun l hl => ?_⟩
  · rw [List.length_set, h.length]
  · rcases getElem?_set_cases hlt hj with ⟨rfl, hnew⟩ | ⟨-, hold⟩
    · cases hnew
      exact hthread
    · exact h.outside j p hold
  · rcases getElem?_set_cases hlt hj with ⟨-, hne⟩ | ⟨hne, hold⟩
    · simp at hne
    · obtain ⟨hholder', hthread', hahead'⟩ := h.inside j o' body next' hold
      have hother : I.lock o' ≠ I.lock o := by
        intro hsame
        rw [hsame, hholder] at hholder'
        exact hne (Option.some.inj hholder').symm
      dsimp only
      rw [Function.update_of_ne hother]
      exact ⟨hholder', hthread', hahead'⟩
  · have hother : l ≠ I.lock o := by
      intro hsame
      subst hsame
      simp at hl
    simp only [Function.update_of_ne hother] at hl
    obtain ⟨o', body, next', hold, hlock⟩ := h.held l j hl
    have hj : j ≠ k := by
      intro hsame
      rw [hsame, hk] at hold
      cases hold
      exact hother hlock.symm
    exact ⟨o', body, next', by rw [List.getElem?_set_ne (Ne.symm hj)]; exact hold, hlock⟩
  · by_cases hsame : l = I.lock o
    · subst hsame
      exact hahead
    · simp only [Function.update_of_ne hsame] at hl
      exact h.free l hl

omit [DecidableEq I.Lock] in
theorem Simulates.spawn (h : Simulates s a) (p : Program I α) :
    Simulates { s with threads := s.threads ++ [.outside p] } { a with threads := a.threads ++ [p] } := by
  have hcases : ∀ {j : Nat} {t : Thread I α}, (s.threads ++ [.outside p])[j]? = some t →
      s.threads[j]? = some t ∧ j < s.threads.length ∨ j = s.threads.length ∧ t = .outside p := by
    intro j t hj
    rcases Nat.lt_or_ge j s.threads.length with hlt | hge
    · exact Or.inl ⟨by rwa [List.getElem?_append_left hlt] at hj, hlt⟩
    · rw [List.getElem?_append_right hge, List.getElem?_singleton] at hj
      split at hj
      · next hzero => exact Or.inr ⟨by omega, (Option.some.inj hj).symm⟩
      · simp at hj
  refine ⟨by simp [h.length], fun j q hj => ?_, fun j o body next hj => ?_, fun l j hl => ?_, h.free⟩
  · rcases hcases hj with ⟨hold, hlt⟩ | ⟨rfl, hnew⟩
    · rw [List.getElem?_append_left (h.length ▸ hlt)]
      exact h.outside j q hold
    · cases hnew
      rw [← h.length, List.getElem?_append_right (Nat.le_refl _), Nat.sub_self]
      rfl
  · rcases hcases hj with ⟨hold, hlt⟩ | ⟨-, hnew⟩
    · rw [List.getElem?_append_left (h.length ▸ hlt)]
      exact h.inside j o body next hold
    · simp at hnew
  · obtain ⟨o, body, next, hold, hlock⟩ := h.held l j hl
    have hlt := (List.getElem?_eq_some_iff.mp hold).1
    exact ⟨o, body, next, by rw [List.getElem?_append_left hlt]; exact hold, hlock⟩

theorem Simulates.step (h : Simulates s a) (x : Action ι) : Simulates (s.step program m x).1
    (Machine.run (Atomic.step program) a (if s.counts x then [x] else [])) := by
  cases x with
  | spawn job => exact h.spawn (program job)
  | run k =>
    simp only [Locked.step, Locked.runStep]
    split
    · next o next hk =>
      have hcounts : s.counts (.run k : Action ι) = (s.holder (I.lock o)).isNone := by simp only [Locked.counts, hk]
      cases hholder : s.holder (I.lock o) with
      | none =>
        simp only [hcounts, hholder, if_true, Option.isNone_none, Machine.run_cons, Machine.run_nil, Atomic.step,
          h.outside k _ hk]
        exact @take _ _ _ m _ _ h _ _ _ hk hholder
      | some j =>
        simp only [hcounts, hholder, reduceCtorEq, if_false, Option.isNone_some, Bool.false_eq_true, Machine.run_nil]
        exact h
    · next hk =>
      have hcounts : s.counts (.run k : Action ι) = false := by simp only [Locked.counts, hk]
      rw [hcounts]
      exact h.access hk
    · next hk =>
      have hcounts : s.counts (.run k : Action ι) = false := by simp only [Locked.counts, hk]
      rw [hcounts]
      exact h.release hk
    · next hcall _ _ =>
      have hcounts : s.counts (.run k : Action ι) = false := by
        unfold Locked.counts
        dsimp only
        split
        · next o next hk => exact absurd hk (hcall o next)
        · rfl
      rw [hcounts]
      exact h

/-- Every run of the threads is one of the atomic machine, whose actions are those that start a thread or take a lock. -/
theorem Simulates.run (h : Simulates s a) (xs : List (Action ι)) :
    Simulates (Machine.run (Locked.step program m) s xs)
      (Machine.run (Atomic.step program) a (Locked.linear program m s xs)) := by
  induction xs generalizing s a with
  | nil => exact h
  | cons x rest ih =>
    rw [Locked.linear, Machine.run_append]
    exact ih (h.step x)

/-- Every job gets its thread in both machines, in the same order. -/
theorem Locked.linear_jobs {xs : List (Action ι)} :
    (Locked.linear program m s xs).filterMap Action.job? = xs.filterMap Action.job? := by
  induction xs generalizing s with
  | nil => rfl
  | cons x rest ih =>
    rw [linear, List.filterMap_append, ih]
    cases x with
    | spawn job => rfl
    | run k => cases hcounts : s.counts (.run k : Action ι) <;> rfl

omit [DecidableEq I.Lock] in
/-- No thread waits for a lock that nobody will release. -/
theorem Simulates.progress (h : Simulates s a) {k : Nat} {t : Thread I α} (hk : s.threads[k]? = some t)
    (hnot : ∀ result, t ≠ .outside (.done result)) : ∃ j, s.enabled j = true := by
  cases t with
  | inside o body next => exact ⟨k, by simp only [Locked.enabled, hk]⟩
  | outside program =>
    cases program with
    | done result => exact absurd rfl (hnot result)
    | call o next =>
      cases hholder : s.holder (I.lock o) with
      | none => exact ⟨k, by simp only [Locked.enabled, hk, hholder, Option.isNone_none]⟩
      | some j =>
        obtain ⟨o', body, next', hj, -⟩ := h.held _ j hholder
        exact ⟨j, by simp only [Locked.enabled, hj]⟩

/-- Data before any thread has started. -/
def Locked.create (data : ∀ l, I.Data l) : Locked I α := ⟨data, fun _ => none, []⟩

omit [DecidableEq I.Lock] in
theorem simulates_create (data : ∀ l, I.Data l) :
    Simulates (Locked.create data : Locked I α) ⟨data, []⟩ :=
  ⟨rfl, by simp [Locked.create], by simp [Locked.create], by simp [Locked.create], fun _ _ => rfl⟩

end Machines

end Monitor
