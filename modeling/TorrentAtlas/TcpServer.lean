import TorrentAtlas.Library.Projection

/-!
# The server's threads (`common/net/tcp_server.{hpp,cpp}`)

`serve` accepts connections and starts a thread for each, until it is stopped; then it waits
for the handlers. Its step ends at an access to something that a handler or `stop` uses too;
a critical section of `mutex_` is one step. The handlers themselves are arbitrary.
-/
namespace TorrentAtlas

namespace TcpServer

/-- Where `serve` stands. -/
inductive Phase
  /-- About to read `stopping_`, then in `poll`, then in `accept`. -/
  | checking
  | polling
  | accepting
  /-- With a connection: about to count it, then to start its thread. -/
  | counting
  | spawning
  | closing
  /-- About to lock `mutex_` for `idle_.wait`, then blocked in it. -/
  | idling
  | waiting
  | returned
  deriving DecidableEq, Repr

/-- Where the thread of a connection stands: in `handler_`, about to lock `mutex_`, at its end. -/
inductive Handler
  | running
  | finishing
  | finished
  deriving DecidableEq, Repr

/-- How the outside answers `serve`: `again` is a timeout or an error of `poll`, an accept that was interrupted or
aborted, or a spurious wakeup. -/
inductive Input
  | ok
  | again
  | fail
  deriving DecidableEq, Repr

inductive Action
  | stop
  | serve (input : Input)
  /-- A step of the thread of connection `k`, whose handler may have returned. -/
  | handler (k : Nat) (returns : Bool)
  deriving DecidableEq, Repr

end TcpServer

open TcpServer in
structure TcpServer where
  phase : Phase
  stopping : Bool
  listening : Bool
  active : Nat
  handlers : List Handler
  /-- A notification that reached `serve` in `idle_.wait`. -/
  notified : Bool
  deriving DecidableEq, Repr

namespace TcpServer

/-- After a successful `listen`. -/
def create : TcpServer := ⟨.checking, false, true, 0, [], false⟩

variable (s : TcpServer)

/-- The predicate of `idle_.wait`, under the lock. -/
def testIdle : TcpServer :=
  if s.active = 0 then { s with phase := .returned } else { s with phase := .waiting, notified := false }

def serveStep (input : Input) : TcpServer :=
  match s.phase with
  | .checking => { s with phase := if s.stopping then .closing else .polling }
  | .polling => { s with phase := if input = .ok then .accepting else .checking }
  | .accepting =>
    match input with
    | .ok => { s with phase := .counting }
    | .again => { s with phase := .checking }
    | .fail => { s with phase := .closing }
  | .counting => { s with phase := .spawning, active := s.active + 1 }
  | .spawning => { s with phase := .checking, handlers := s.handlers ++ [.running] }
  | .closing => { s with phase := .idling, listening := false }
  | .idling => s.testIdle
  | .waiting => if s.notified || input = .again then s.testIdle else s
  | .returned => s

def handlerStep (k : Nat) (returns : Bool) : TcpServer :=
  match s.handlers[k]? with
  | some .running => if returns then { s with handlers := s.handlers.set k .finishing } else s
  | some .finishing =>
    { s with
      handlers := s.handlers.set k .finished
      active := s.active - 1
      notified := s.notified || s.phase = .waiting }
  | _ => s

def step : Action → TcpServer × Unit
  | .stop => ({ s with stopping := true }, ())
  | .serve input => (s.serveStep input, ())
  | .handler k returns => (s.handlerStep k returns, ())

/-- 1 until the handler has finished. -/
def Handler.unfinished : Handler → Nat
  | .finished => 0
  | _ => 1

/-- The handlers that have not finished. -/
def unfinished : Nat := (s.handlers.map Handler.unfinished).sum

/-- `serve` has closed the listener. -/
def Phase.isClosed : Phase → Bool
  | .idling | .waiting | .returned => true
  | _ => false

/-- The books of `active_`, and why `serve` may wait or return. -/
structure Sound (s : TcpServer) : Prop where
  active : s.active = s.unfinished + (decide (s.phase = .spawning)).toNat
  waiting : s.phase = .waiting → s.notified = false → 0 < s.active
  returned : s.phase = .returned → s.active = 0
  listening : s.listening = !s.phase.isClosed

section Step

variable {s} {k : Nat}

theorem unfinished_eq_zero : s.unfinished = 0 ↔ ∀ handler ∈ s.handlers, handler = .finished := by
  unfold unfinished
  induction s.handlers with
  | nil => simp
  | cons handler rest ih =>
    rw [List.map_cons, List.sum_cons, Nat.add_eq_zero_iff, ih, List.forall_mem_cons]
    cases handler <;> simp [Handler.unfinished]

theorem create_sound : create.Sound := ⟨rfl, by simp [create], by simp [create], rfl⟩

theorem Sound.testIdle (h : s.Sound) (hphase : s.phase = .idling ∨ s.phase = .waiting) : s.testIdle.Sound := by
  have hactive : s.active = s.unfinished := by
    have hbooks := h.active
    rcases hphase with hphase | hphase <;> simpa [hphase] using hbooks
  have hlistening : s.listening = false := by
    have hclosed := h.listening
    rcases hphase with hphase | hphase <;> simpa [hphase, Phase.isClosed] using hclosed
  unfold TcpServer.testIdle
  split
  · next hzero => exact ⟨hactive, by simp, fun _ => hzero, hlistening⟩
  · next hpos => exact ⟨hactive, fun _ _ => Nat.pos_of_ne_zero hpos, by simp, hlistening⟩

theorem Sound.serveStep (h : s.Sound) (input : Input) : (s.serveStep input).Sound := by
  have hbooks := h.active
  have hclosed := h.listening
  unfold TcpServer.serveStep
  cases hphase : s.phase with
  | checking =>
    rw [hphase] at hbooks hclosed
    dsimp only
    split <;> exact ⟨hbooks, by simp, by simp, hclosed⟩
  | polling =>
    rw [hphase] at hbooks hclosed
    dsimp only
    split <;> exact ⟨hbooks, by simp, by simp, hclosed⟩
  | accepting =>
    rw [hphase] at hbooks hclosed
    cases input <;> exact ⟨hbooks, by simp, by simp, hclosed⟩
  | counting =>
    rw [hphase] at hbooks hclosed
    exact ⟨congrArg (· + 1) hbooks, by simp, by simp, hclosed⟩
  | spawning =>
    rw [hphase] at hbooks hclosed
    refine ⟨?_, by simp, by simp, hclosed⟩
    simp only [unfinished, List.map_append, List.sum_append, List.map_cons, List.map_nil, List.sum_cons, List.sum_nil]
    exact hbooks
  | closing =>
    rw [hphase] at hbooks
    exact ⟨hbooks, by simp, by simp, rfl⟩
  | idling => exact h.testIdle (Or.inl hphase)
  | waiting =>
    dsimp only
    split
    · exact h.testIdle (Or.inr hphase)
    · exact h
  | returned => exact h

/-- A handler that counts itself off was counted, so `active_` does not wrap around. -/
theorem Sound.active_pos (h : s.Sound) {handler : Handler} (hk : s.handlers[k]? = some handler)
    (hne : handler ≠ .finished) : 0 < s.active := by
  have hsum := Machine.sum_map_set Handler.unfinished hk .finished
  have hone : handler.unfinished = 1 := by
    cases handler with
    | finished => exact absurd rfl hne
    | _ => rfl
  have hnone : Handler.finished.unfinished = 0 := rfl
  have hbooks := h.active
  unfold unfinished at hbooks
  omega

theorem Sound.handlerStep (h : s.Sound) (k : Nat) (returns : Bool) : (s.handlerStep k returns).Sound := by
  unfold TcpServer.handlerStep
  split
  · next hk =>
    split
    · have hsum := Machine.sum_map_set Handler.unfinished hk .finishing
      refine ⟨?_, h.waiting, h.returned, h.listening⟩
      have hbooks := h.active
      simp only [unfinished, Handler.unfinished] at hsum hbooks ⊢
      omega
    · exact h
  · next hk =>
    have hpos := h.active_pos hk (by simp)
    have hsum := Machine.sum_map_set Handler.unfinished hk .finished
    refine ⟨?_, fun hphase hnotified => ?_, fun hphase => ?_, h.listening⟩
    · have hbooks := h.active
      simp only [unfinished, Handler.unfinished] at hsum hbooks ⊢
      omega
    · simp only [Bool.or_eq_false_iff, decide_eq_false_iff_not] at hnotified
      exact absurd hphase hnotified.2
    · have hzero := h.returned hphase
      simp only [hzero]
  · exact h

theorem Sound.step (h : s.Sound) (action : Action) : (s.step action).1.Sound := by
  cases action with
  | stop => exact ⟨h.active, h.waiting, h.returned, h.listening⟩
  | serve input => exact h.serveStep input
  | handler k returns => exact h.handlerStep k returns

end Step

section Return

/-- What is left to do once `stop` has been called. -/
def phaseRank : Nat :=
  match s.phase with
  | .returned => 0
  | .waiting => 1
  | .idling => 2
  | .closing => 3
  | .checking => 4
  | .spawning => 8
  | .counting => 9
  | .accepting => 10
  | .polling => 11

def Handler.rank : Handler → Nat
  | .running => 3
  | .finishing => 2
  | .finished => 0

def rank : Nat := s.phaseRank + (s.handlers.map Handler.rank).sum + s.notified.toNat

variable {s} {k : Nat}

theorem testIdle_rank (hphase : s.phase = .idling ∨ s.phase = .waiting ∧ s.notified = true) :
    s.testIdle.rank < s.rank := by
  have hold : s.rank = (s.handlers.map Handler.rank).sum + s.notified.toNat + s.phaseRank := by
    unfold rank
    omega
  unfold testIdle
  split
  · rcases hphase with hphase | ⟨hphase, hnotified⟩ <;> simp only [rank, phaseRank, hphase] <;> omega
  · rcases hphase with hphase | ⟨hphase, hnotified⟩
    · simp only [rank, phaseRank, hphase, Bool.toNat_false]
      omega
    · simp only [rank, phaseRank, hphase, hnotified, Bool.toNat_false, Bool.toNat_true]
      omega

theorem serveStep_stopping (s : TcpServer) (input : Input) : (s.serveStep input).stopping = s.stopping := by
  unfold serveStep testIdle
  split
  case h_3 => cases input <;> rfl
  case h_7 => split <;> rfl
  case h_8 =>
    split
    · split <;> rfl
    · rfl
  all_goals rfl

theorem handlerStep_stopping (s : TcpServer) (k : Nat) (returns : Bool) :
    (s.handlerStep k returns).stopping = s.stopping := by
  unfold handlerStep
  split
  · split <;> rfl
  · rfl
  · rfl

theorem rank_serveStep (input : Input) (h : s.Sound) (hstopping : s.stopping = true) :
    s.serveStep input = s ∨ (s.serveStep input).rank < s.rank := by
  unfold serveStep
  cases hphase : s.phase with
  | returned => exact Or.inl rfl
  | idling => exact Or.inr (testIdle_rank (Or.inl hphase))
  | waiting =>
    dsimp only
    split
    · next hwakes =>
      by_cases hnotified : s.notified = true
      · exact Or.inr (testIdle_rank (Or.inr ⟨hphase, hnotified⟩))
      · -- A spurious wakeup: there is a handler to wait for.
        left
        have hfalse : s.notified = false := by simpa using hnotified
        have hpos := h.waiting hphase hfalse
        rw [testIdle, if_neg (by omega), ← hphase, ← hfalse]
    · exact Or.inl rfl
  | checking =>
    right
    simp only [hstopping, rank, phaseRank, hphase, if_true]
    omega
  | polling =>
    right
    dsimp only
    split <;> simp only [rank, phaseRank, hphase] <;> omega
  | accepting =>
    right
    cases input <;> simp only [rank, phaseRank, hphase] <;> omega
  | spawning =>
    right
    simp only [rank, phaseRank, hphase, List.map_append, List.sum_append, List.map_cons, List.map_nil, List.sum_cons,
      List.sum_nil, Handler.rank]
    omega
  | counting | closing =>
    right
    simp only [rank, phaseRank, hphase]
    omega

theorem rank_handlerStep (returns : Bool) : s.handlerStep k returns = s ∨ (s.handlerStep k returns).rank < s.rank := by
  unfold handlerStep
  split
  · next hk =>
    split
    · right
      have hsum := Machine.sum_map_set Handler.rank hk .finishing
      simp only [Handler.rank] at hsum
      simp only [rank, phaseRank]
      omega
    · exact Or.inl rfl
  · next hk =>
    right
    have hsum := Machine.sum_map_set Handler.rank hk .finished
    have hflag : (s.notified || decide (s.phase = .waiting)).toNat ≤ 1 := Bool.toNat_le _
    simp only [Handler.rank] at hsum
    simp only [rank, phaseRank]
    omega
  · exact Or.inl rfl

def Action.isServe : Action → Bool
  | .serve _ => true
  | _ => false

/-- Every thread of the server has had a turn, and the handlers that ran have returned. -/
def Fair (round : List (Event TcpServer Action Unit)) : Prop :=
  (∃ e ∈ round, e.input.isServe = true) ∧
    ∀ e ∈ round, ∀ k < e.before.handlers.length, ∃ e' ∈ round, e'.input = .handler k true

instance (round : List (Event TcpServer Action Unit)) : Decidable (Fair round) := instDecidableAnd

/-- Once stopped, a server runs down, whoever still connects. -/
theorem runsDown : Machine.RunsDown step (fun _ _ => True) (fun s => s.Sound ∧ s.stopping = true) id rank where
  keeps s action h _ := by
    refine ⟨h.1.step action, ?_⟩
    cases action with
    | stop => rfl
    | serve input => exact (serveStep_stopping s input).trans h.2
    | handler k returns => exact (handlerStep_stopping s k returns).trans h.2
  lowers s action h _ := by
    suffices hlowers : (s.step action).1 = s ∨ (s.step action).1.rank < s.rank by
      rcases hlowers with hsame | hlower
      · exact Or.inl ⟨hsame, Nat.le_of_eq (congrArg rank hsame)⟩
      · exact Or.inr hlower
    cases action with
    | stop =>
      left
      change { s with stopping := true } = s
      rw [← h.2]
    | serve input => exact rank_serveStep input h.1 h.2
    | handler k returns => exact rank_handlerStep returns

/-- A stopped server that a turn of every thread leaves as it is has returned. -/
theorem returned_of_turns (h : s.Sound) (hstopping : s.stopping = true) {input : Input} (hserve : s.serveStep input = s)
    (hhandlers : ∀ k < s.handlers.length, s.handlerStep k true = s) : s.phase = .returned := by
  have hfinished : ∀ handler ∈ s.handlers, handler = .finished := by
    intro handler hmem
    obtain ⟨k, hk⟩ := List.mem_iff_getElem?.mp hmem
    have hlt := (List.getElem?_eq_some_iff.mp hk).1
    have hkept : (s.handlerStep k true).handlers[k]? = some handler := by
      rw [hhandlers k hlt]
      exact hk
    unfold handlerStep at hkept
    rw [hk] at hkept
    cases handler with
    | finished => rfl
    | running | finishing => simp [List.getElem?_set_self hlt] at hkept
  have hnobody : s.unfinished = 0 := unfinished_eq_zero.mpr hfinished
  have hphase := congrArg TcpServer.phase hserve
  unfold serveStep at hphase
  cases hp : s.phase with
  | returned => rfl
  | waiting =>
    -- Nobody is left to wait for, so a notification is on its way.
    have hactive := h.active
    simp only [hp, hnobody] at hactive
    have hnotified : s.notified = true := by
      by_contra hnone
      have hpos := h.waiting hp (by simpa using hnone)
      simp [hactive] at hpos
    simp [hp, hnotified, testIdle, hactive] at hphase
  | idling =>
    simp only [hp, testIdle] at hphase
    split at hphase <;> simp at hphase
  | polling =>
    simp only [hp] at hphase
    split at hphase <;> simp at hphase
  | accepting =>
    simp only [hp] at hphase
    cases input <;> simp at hphase
  | checking => simp [hp, hstopping] at hphase
  | counting | spawning | closing => simp [hp] at hphase

theorem returned_of_unchanged {inputs : List Action} (h : s.Sound) (hstopping : s.stopping = true)
    (hfair : Fair (Machine.events step s inputs)) (hsame : ∀ e ∈ Machine.events step s inputs, e.after = e.before) :
    s.phase = .returned := by
  have hevents := Machine.shown_eq (id : TcpServer → TcpServer) hsame
  obtain ⟨⟨e, he, hserves⟩, hhandlers⟩ := hfair
  have hbefore : e.before = s := (hevents e he).2
  have hstay := hsame e he
  rw [(hevents e he).1, hbefore] at hstay
  cases hinput : e.input with
  | serve input =>
    rw [hinput] at hstay
    refine returned_of_turns h hstopping hstay fun k hk => ?_
    obtain ⟨e', he', hinput'⟩ := hhandlers e he k (by rw [hbefore]; exact hk)
    have hstay' := hsame e' he'
    rw [(hevents e' he').1, show e'.before = s from (hevents e' he').2, hinput'] at hstay'
    exact hstay'
  | stop | handler => simp [hinput, Action.isServe] at hserves

/-- Closing the listener is final, and nobody connects after it. -/
theorem step_closed {action : Action} (h : s.phase.isClosed = true) :
    (s.step action).1.phase.isClosed = true ∧ (s.step action).1.handlers.length = s.handlers.length := by
  cases action with
  | stop => exact ⟨h, rfl⟩
  | handler k returns =>
    simp only [step, handlerStep]
    split
    · split
      · exact ⟨h, List.length_set⟩
      · exact ⟨h, rfl⟩
    · exact ⟨h, List.length_set⟩
    · exact ⟨h, rfl⟩
  | serve input =>
    simp only [step, serveStep]
    cases hphase : s.phase with
    | idling =>
      simp only [testIdle]
      split <;> exact ⟨rfl, rfl⟩
    | waiting =>
      dsimp only
      split
      · simp only [testIdle]
        split <;> exact ⟨rfl, rfl⟩
      · exact ⟨h, rfl⟩
    | returned => exact ⟨h, rfl⟩
    | _ => simp [hphase, Phase.isClosed] at h

theorem step_returned (action : Action) (h : s.phase = .returned) : (s.step action).1.phase = .returned := by
  cases action with
  | stop => exact h
  | serve input => simp [step, serveStep, h]
  | handler k returns =>
    simp only [step, handlerStep]
    split
    · split <;> exact h
    · exact h
    · exact h

/-- A connection that `serve` has accepted. -/
def accepts (e : Event TcpServer Action Unit) : Bool := e.before.phase = .accepting && e.input = .serve .ok

/-- The connections that `serve` has in its hand. -/
def Phase.inHand : Phase → Nat
  | .counting | .spawning => 1
  | _ => 0

/-- Every accepted connection has a thread, or is about to get one. -/
def Manned (past : List (Event TcpServer Action Unit)) (s : TcpServer) : Prop :=
  past.countP accepts = s.handlers.length + s.phase.inHand

theorem testIdle_frame (s : TcpServer) :
    s.testIdle.handlers = s.handlers ∧ s.testIdle.phase.inHand = 0 := by
  unfold testIdle
  split <;> exact ⟨rfl, rfl⟩

/-- A step adds to the threads and to the hand of `serve` what it accepts. -/
theorem step_manned (action : Action) :
    (s.step action).1.handlers.length + (s.step action).1.phase.inHand =
      s.handlers.length + s.phase.inHand + (accepts (Machine.event TcpServer.step s action)).toNat := by
  cases action with
  | stop => simp [accepts, Machine.event, step]
  | handler k returns =>
    have hkeeps : (s.handlerStep k returns).handlers.length = s.handlers.length ∧
        (s.handlerStep k returns).phase = s.phase := by
      unfold handlerStep
      split
      · split
        · exact ⟨List.length_set, rfl⟩
        · exact ⟨rfl, rfl⟩
      · exact ⟨List.length_set, rfl⟩
      · exact ⟨rfl, rfl⟩
    simp [accepts, Machine.event, step, hkeeps]
  | serve input =>
    obtain ⟨hhandlers, hhand⟩ := testIdle_frame s
    simp only [accepts, Machine.event, step]
    unfold serveStep
    split
    · next hphase =>
      simp only [hphase]
      split <;> simp [Phase.inHand]
    · next hphase =>
      simp only [hphase]
      split <;> simp [Phase.inHand]
    · next hphase => cases input <;> simp [hphase, Phase.inHand]
    · next hphase => simp [hphase, Phase.inHand]
    · next hphase => simp [hphase, Phase.inHand]
    · next hphase => simp [hphase, Phase.inHand]
    · next hphase =>
      rw [hhandlers, hhand]
      simp [hphase, Phase.inHand]
    · next hphase =>
      split
      · rw [hhandlers, hhand]
        simp [hphase, Phase.inHand]
      · simp [hphase]
    · next hphase => simp [hphase]

theorem Manned.step {past : List (Event TcpServer Action Unit)} (h : Manned past s) (action : Action) :
    Manned (past ++ [Machine.event TcpServer.step s action]) (s.step action).1 := by
  unfold Manned at h ⊢
  rw [List.countP_append, h, List.countP_singleton, step_manned]
  cases accepts (Machine.event TcpServer.step s action) <;> rfl

/-- Along every run of a server, whoever connects: each accepted connection gets one handler thread; `active_` counts
the handlers that run and never wraps around; `serve` only blocks while a handler is to come that will wake it; and
when `serve` has returned every handler has finished and nobody can connect. After `stop`, it returns within as many
rounds of turns as the rank says. -/
theorem serve_drains (inputs : List Action) :
    let s := Machine.run step create inputs
    (Machine.events step create inputs).countP accepts =
      s.handlers.length + s.phase.inHand ∧
    s.active = s.unfinished + (decide (s.phase = .spawning)).toNat ∧
    (∀ k : Nat, s.handlers[k]? = some .finishing → 0 < s.active) ∧
    (s.phase = .waiting → s.notified = false → ∃ handler ∈ s.handlers, handler ≠ .finished) ∧
    (s.phase = .returned → s.listening = false ∧ (∀ handler ∈ s.handlers, handler = .finished) ∧
      ∀ later, (Machine.run step s later).phase = .returned ∧
        (Machine.run step s later).handlers.length = s.handlers.length) ∧
    (s.stopping = true → ∀ rounds, Machine.Rounds step Fair s rounds → s.rank < rounds.length →
      (Machine.run step s rounds.flatten).phase = .returned) := by
  intro s
  have hsound : s.Sound := Machine.invariant create_sound (fun s action h => h.step action) ⟨inputs, rfl⟩
  have hmanned : Manned (Machine.events step create inputs) s :=
    Machine.history rfl (fun past t action _ h => h.step action) inputs
  have hnobody : s.phase ≠ .spawning → s.active = 0 → ∀ handler ∈ s.handlers, handler = .finished := by
    intro hphase hzero
    have hactive := hsound.active
    rw [hzero, decide_eq_false hphase] at hactive
    exact unfinished_eq_zero.mp hactive.symm
  refine ⟨hmanned, hsound.active, fun k hk => hsound.active_pos hk (by simp), fun hphase hnotified => ?_,
    fun hphase => ⟨?_, hnobody (by simp [hphase]) (hsound.returned hphase), fun later => ?_⟩,
    fun hstopping rounds hfair hmany => ?_⟩
  · have hpos := hsound.waiting hphase hnotified
    by_contra hnone
    have hall : ∀ handler ∈ s.handlers, handler = .finished := by
      intro handler hmem
      by_contra hne
      exact hnone ⟨handler, hmem, hne⟩
    have hactive := hsound.active
    rw [unfinished_eq_zero.mpr hall, decide_eq_false (by simp [hphase])] at hactive
    simp [hactive] at hpos
  · rw [hsound.listening, hphase]
    rfl
  · refine Machine.invariant (P := fun t : TcpServer => t.phase = .returned ∧ t.handlers.length = s.handlers.length)
      ⟨hphase, rfl⟩ (fun t action ht => ⟨step_returned action ht.1, ?_⟩) ⟨later, rfl⟩
    exact ((step_closed (by rw [ht.1]; rfl)).2).trans ht.2
  · have halong : Machine.Along step (fun _ _ => True) s rounds.flatten :=
      Machine.along_of_forall fun _ _ _ => trivial
    exact runsDown.ends (fun t action _ _ ht => step_returned action ht)
      (fun t inputs h _ hround hsame => returned_of_unchanged h.1 h.2 hround hsame) ⟨hsound, hstopping⟩ halong hfair hmany

/-- A connection is being served when the server is stopped, and one more is refused. -/
theorem serve_drains_one :
    let s := Machine.run step create (List.replicate 5 (.serve .ok) ++ [.stop])
    s.handlers = [.running] ∧
      (Machine.run step s (List.replicate 8 [.serve .ok, .handler 0 true]).flatten).phase = .returned := by
  intro s
  obtain ⟨-, -, -, -, -, hreturns⟩ := serve_drains (List.replicate 5 (.serve .ok) ++ [.stop])
  have hfair : Machine.Rounds step Fair s (List.replicate 8 [.serve .ok, .handler 0 true]) := by decide +kernel
  exact ⟨by decide +kernel, hreturns (by decide +kernel) _ hfair (by decide +kernel)⟩

end Return

end TcpServer

end TorrentAtlas
