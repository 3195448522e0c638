import TorrentAtlas.Library.RoundRobin
import TorrentAtlas.RarestFirst

/-!
# The attempts of `fetchPiece`

A call of `fetchPiece` takes turns around the holders of its piece, three rounds of them,
until an attempt delivers the piece and writes it. The other threads go on meanwhile; as
long as nobody cancels they change nothing that the call looks at.
-/
namespace TorrentAtlas

open Encoding Crypto PieceFile RoundRobin

namespace Download

abbrev DownloadEvent := Event Download (View × Action) Effect

/-- The worker is in the loop of `fetchPiece` for this piece. -/
def Worker.fetches (piece : Nat) : Worker → Bool
  | .attempting p _ | .requesting p _ _ | .writing p _ _ _ => p == piece
  | _ => false

/-- Worker `k` is in its call for the piece, and the step is not a cancellation. -/
def Calling (k piece : Nat) (d : Download) (i : View × Action) : Prop :=
  i.2 ≠ .cancel ∧ (d.workers[k]?).any (Worker.fetches piece) = true

instance (k piece : Nat) (d : Download) (i : View × Action) : Decidable (Calling k piece d i) :=
  inferInstanceAs (Decidable (_ ∧ _))

/-- Where worker `k` stood and what it found, if the step is one of its own. -/
def own (k : Nat) (e : DownloadEvent) : Option (Worker × Input) :=
  match e.input.2 with
  | .worker j input => if j = k then (e.before.workers[k]?).map (·, input) else none
  | _ => none

/-- The seeder that worker `k` has asked for a piece, when its answer is in. -/
def asked (k : Nat) (e : DownloadEvent) : Option Nat :=
  match own k e with
  | some (.requesting _ _ seeder, .reply _ _ _) => some seeder
  | _ => none

/-- A round of writing a piece: all of it is written, or the round fails, or it is not over. -/
def writeVerdict (file : Bytes) (piece : Nat) (data : Bytes) (done : Nat) (input : Input) : Option Bool :=
  if data.length ≤ done then some true
  else
    match input with
    | .io outcome => if (writeStep file piece data done outcome).isNone then some false else none
    | _ => none

/-- How an attempt of worker `k` ended: no piece with the right hash was delivered or it could not be written
(`false`), or it has been written to its end (`true`). -/
def verdict (ssl : OpenSsl) (k : Nat) (e : DownloadEvent) : Option Bool :=
  match own k e with
  | some (.requesting piece _ _, .reply _ _ outcome) =>
    if (PeerClient.fetchPiece ssl (e.before.pieceHash piece) outcome).1 = .success then none else some false
  | some (.writing piece _ data done, input) => writeVerdict e.input.1.file piece data done input
  | _ => none

/-- What the attempts so far have come to, by where the worker stands. -/
def Standing (circle : List Nat) (piece : Nat) (asks : List Nat) (verdicts : List Bool) : Worker → Prop
  | .attempting p attempt => p = piece ∧ attempt ≤ PASSES_PER_PIECE * circle.length ∧
      asks = turns circle piece attempt ∧ verdicts = List.replicate attempt false
  | .requesting p attempt seeder => p = piece ∧ attempt < PASSES_PER_PIECE * circle.length ∧
      asks = turns circle piece attempt ∧ verdicts = List.replicate attempt false ∧
      turn circle (piece + attempt) = some seeder
  | .writing p attempt _ _ => p = piece ∧ attempt < PASSES_PER_PIECE * circle.length ∧
      asks = turns circle piece (attempt + 1) ∧ verdicts = List.replicate attempt false
  | .written p => p = piece ∧ ∃ attempt < PASSES_PER_PIECE * circle.length,
      asks = turns circle piece (attempt + 1) ∧ verdicts = List.replicate attempt false ++ [true]
  | .returned p => p = piece ∧ asks = turns circle piece (PASSES_PER_PIECE * circle.length) ∧
      verdicts = List.replicate (PASSES_PER_PIECE * circle.length) false
  | _ => False

/-- What holds along a call of worker `k` for the piece, with the circle of holders it found. -/
structure Retried (ssl : OpenSsl) (circle : List Nat) (k piece : Nat) (past : List DownloadEvent) (d : Download) :
    Prop where
  phase : d.phase = .fetching
  holders : d.holders piece = circle
  cancelled : d.cancelled = false
  worker : ∃ w, d.workers[k]? = some w ∧
    Standing circle piece (past.filterMap (asked k)) (past.filterMap (verdict ssl k)) w

variable {d : Download} {ssl : OpenSsl} {k piece : Nat} {circle : List Nat} {past : List DownloadEvent}

/-- A worker moves itself only, and does not cancel. -/
theorem workerStep_others (file : Bytes) (j : Nat) (input : Input) :
    (∀ i, i ≠ j → (d.workerStep ssl file j input).1.workers[i]? = d.workers[i]?) ∧
      (d.workerStep ssl file j input).1.cancelled = d.cancelled := by
  have hset : ∀ w i, i ≠ j → (d.workers.set j w)[i]? = d.workers[i]? :=
    fun w i hne => List.getElem?_set_ne (Ne.symm hne)
  have hcases := workerStep_cases ssl d file j input
  generalize d.workerStep ssl file j input = result at hcases ⊢
  cases hcases with
  | absent | stopped | wait | block => exact ⟨fun _ _ => rfl, rfl⟩
  | @answer piece attempt seeder now located outcome =>
    obtain ⟨w, failures, hanswer⟩ := @answerStep_eq d ssl j piece attempt seeder now located outcome
    rw [hanswer]
    exact ⟨hset w, rfl⟩
  | _ => exact ⟨hset _, rfl⟩

theorem holders_of_survey {d' : Download} (hbitmaps : d'.seederBitmaps = d.seederBitmaps)
    (hseeders : d'.seeders.length = d.seeders.length) (piece : Nat) : d'.holders piece = d.holders piece := by
  simp only [Download.holders, hbitmaps, hseeders]

theorem workerStep_holders (file : Bytes) (j : Nat) (input : Input) (piece : Nat) :
    (d.workerStep ssl file j input).1.holders piece = d.holders piece := by
  obtain ⟨-, hbitmaps, -, -, hseeders, -⟩ := @workerStep_survey d ssl file j input
  exact holders_of_survey hbitmaps hseeders piece

/-- A step that is not one of worker `k` asks nobody and decides nothing. -/
theorem Retried.other {e : DownloadEvent} (h : Retried ssl circle k piece past d) (hown : own k e = none)
    {d' : Download} (hphase : d'.phase = d.phase) (hholders : d'.holders piece = d.holders piece)
    (hcancelled : d'.cancelled = d.cancelled) (hworker : d'.workers[k]? = d.workers[k]?) :
    Retried ssl circle k piece (past ++ [e]) d' := by
  have hasked : asked k e = none := by rw [asked, hown]
  have hverdict : verdict ssl k e = none := by rw [verdict, hown]
  refine ⟨hphase.trans h.phase, hholders.trans h.holders, hcancelled.trans h.cancelled, ?_⟩
  rw [hworker, List.filterMap_append, List.filterMap_append]
  simpa [hasked, hverdict] using h.worker

/-- While a worker is in its call, `fetchPieces` waits for it. -/
theorem mainStep_waits {w : Worker} (hphase : d.phase = .fetching) (hw : d.workers[k]? = some w) (hne : w ≠ .stopped)
    (view : View) (input : Input) : d.mainStep ssl view input = (d, .none) := by
  simp only [mainStep, hphase]
  rw [if_pos]
  exact List.any_eq_true.mpr ⟨w, List.mem_of_getElem? hw, by simpa using hne⟩

/-- Where a seeder's answer takes the worker. -/
theorem answerStep_workers (k piece attempt seeder : Nat) (now : Int) (located : Option (List SeederAccess))
    (outcome : Outcome) : (d.answerStep ssl k piece attempt seeder now located outcome).workers = d.workers.set k
      (if (PeerClient.fetchPiece ssl (d.pieceHash piece) outcome).1 = .success then
        .writing piece attempt (PeerClient.fetchPiece ssl (d.pieceHash piece) outcome).2 0
      else .attempting piece (attempt + 1)) := by
  have hhash : ∀ seeders, pieceHash { d with seeders } piece = d.pieceHash piece := fun _ => rfl
  simp only [answerStep, hhash]
  generalize PeerClient.fetchPiece ssl (d.pieceHash piece) outcome = fetched
  obtain ⟨result, data⟩ := fetched
  cases result <;> rfl

theorem turn_eq_getD {l : List Nat} (h : l ≠ []) (i : Nat) : turn l i = some (l.getD (i % l.length) 0) := by
  obtain ⟨a, ha⟩ := turn_of_ne_nil h i
  rw [ha, List.getD_eq_getElem?_getD, show l[i % l.length]? = some a from ha]
  rfl

theorem turn_asks {attempt : Nat} (h : d.holders piece ≠ []) :
    turn (d.holders piece) (piece + attempt) = some (d.asks piece attempt) := turn_eq_getD h _

/-- A worker asks the seeder that it has picked. -/
theorem asked_eq_some {e : DownloadEvent} {seeder : Nat} (h : asked k e = some seeder) :
    ∃ piece attempt now located outcome, e.before.workers[k]? = some (.requesting piece attempt seeder) ∧
      e.input.2 = .worker k (.reply now located outcome) := by
  unfold asked at h
  split at h
  · next piece attempt seeder' now located outcome hown =>
    obtain rfl := Option.some.inj h
    unfold own at hown
    split at hown
    · next j input hinput =>
      split at hown
      · next hj =>
        obtain ⟨w, hw, hpair⟩ := Option.map_eq_some_iff.mp hown
        obtain ⟨rfl, rfl⟩ := Prod.mk.inj hpair
        exact ⟨piece, attempt, now, located, outcome, hw, hj ▸ hinput⟩
      · simp at hown
    · simp at hown
  · simp at h

/-- A step of worker `k` itself, by where it stands. -/
theorem Retried.ownStep {view : View} {input : Input} (h : Retried ssl circle k piece past d) {w : Worker}
    (hw : d.workers[k]? = some w) (hfetches : w.fetches piece = true) :
    Retried ssl circle k piece (past ++ [Machine.event (advance ssl) d (view, .worker k input)])
      (d.workerStep ssl view.file k input).1 := by
  obtain ⟨w', hw', hstanding⟩ := h.worker
  obtain rfl := Option.some.inj (hw'.symm.trans hw)
  have hk : k < d.workers.length := (List.getElem?_eq_some_iff.mp hw).1
  have hset : ∀ v : Worker, (d.workers.set k v)[k]? = some v := fun v => by simp [hk]
  have hframe := (@workerStep_frame d ssl view.file k input).2.1
  have hcancelled := (@workerStep_others d ssl view.file k input).2
  have hcircle := @workerStep_holders d ssl view.file k input piece
  have hown : own k (Machine.event (advance ssl) d (view, .worker k input)) = some (w', input) := by
    simp [own, Machine.event, hw]
  refine ⟨hframe.trans h.phase, hcircle.trans h.holders, hcancelled.trans h.cancelled, ?_⟩
  rw [List.filterMap_append, List.filterMap_append]
  generalize past.filterMap (asked k) = asks at hstanding ⊢
  generalize past.filterMap (verdict ssl k) = verdicts at hstanding ⊢
  cases w' with
  | attempting p attempt =>
    obtain ⟨rfl, hle, hasks, hverdicts⟩ := hstanding
    have hasked : asked k (Machine.event (advance ssl) d (view, .worker k input)) = none := by rw [asked, hown]
    have hverdict : verdict ssl k (Machine.event (advance ssl) d (view, .worker k input)) = none := by
      rw [verdict, hown]
    simp only [List.filterMap_cons, List.filterMap_nil, hasked, hverdict, List.append_nil]
    simp only [workerStep, hw, h.cancelled, h.holders]
    split
    · next hmore =>
      simp only [Bool.not_false, Bool.and_true, decide_eq_true_eq] at hmore
      have hne : d.holders p ≠ [] := by
        rw [h.holders]
        rintro rfl
        simp at hmore
      exact ⟨_, hset _, rfl, hmore, hasks, hverdicts, h.holders ▸ turn_asks hne⟩
    · next hlast =>
      simp only [Bool.not_false, Bool.and_true, decide_eq_true_eq] at hlast
      obtain rfl : attempt = PASSES_PER_PIECE * circle.length := by omega
      exact ⟨_, hset _, rfl, hasks, hverdicts⟩
  | requesting p attempt seeder =>
    obtain ⟨rfl, hlt, hasks, hverdicts, hturn⟩ := hstanding
    cases input with
    | reply now located outcome =>
      have hasked : asked k (Machine.event (advance ssl) d (view, .worker k (.reply now located outcome))) =
          some seeder := by
        rw [asked, hown]
      have hturns : asks ++ [seeder] = turns circle p (attempt + 1) := by
        rw [turns_succ, hturn, hasks]
        rfl
      have hverdict : verdict ssl k (Machine.event (advance ssl) d (view, .worker k (.reply now located outcome))) =
          if (PeerClient.fetchPiece ssl (d.pieceHash p) outcome).1 = .success then none else some false := by
        rw [verdict, hown]
        rfl
      simp only [List.filterMap_cons, List.filterMap_nil, hasked, hturns, hverdict]
      simp only [workerStep, hw, answerStep_workers]
      split
      · exact ⟨_, hset _, rfl, hlt, rfl, by simpa using hverdicts⟩
      · refine ⟨_, hset _, rfl, hlt, rfl, ?_⟩
        rw [hverdicts, List.replicate_succ']
    | _ =>
      have hasked : own k (Machine.event (advance ssl) d (view, .worker k _)) =
          some (.requesting p attempt seeder, _) := hown
      simp only [List.filterMap_cons, List.filterMap_nil, asked, verdict, hasked, List.append_nil]
      simp only [workerStep, hw]
      exact ⟨_, rfl, rfl, hlt, hasks, hverdicts, hturn⟩
  | writing p attempt data done =>
    obtain ⟨rfl, hlt, hasks, hverdicts⟩ := hstanding
    have hasked : asked k (Machine.event (advance ssl) d (view, .worker k input)) = none := by rw [asked, hown]
    have hverdict : verdict ssl k (Machine.event (advance ssl) d (view, .worker k input)) =
        writeVerdict view.file p data done input := by
      rw [verdict, hown]
      rfl
    simp only [List.filterMap_cons, List.filterMap_nil, hasked, List.append_nil, hverdict]
    simp only [workerStep, hw, writeVerdict]
    by_cases hall : data.length ≤ done
    · rw [if_pos hall, if_pos hall]
      exact ⟨_, hset _, rfl, attempt, hlt, hasks, by rw [hverdicts]⟩
    · rw [if_neg hall, if_neg hall]
      cases input with
      | io outcome =>
        dsimp only
        cases hstep : writeStep view.file p data done outcome with
        | none =>
          refine ⟨_, hset _, rfl, hlt, hasks, ?_⟩
          simp [hverdicts, List.replicate_succ']
        | some written => exact ⟨_, hset _, rfl, hlt, hasks, by simpa using hverdicts⟩
      | _ => exact ⟨_, hw, rfl, hlt, hasks, by simpa using hverdicts⟩
  | _ => simp [Worker.fetches] at hfetches

/-- One step of anybody, cancellations apart. -/
theorem Retried.step {i : View × Action} (h : Retried ssl circle k piece past d) (hcalling : Calling k piece d i) :
    Retried ssl circle k piece (past ++ [Machine.event (advance ssl) d i]) (advance ssl d i).1 := by
  obtain ⟨hcancel, hworker⟩ := hcalling
  obtain ⟨w, hw, hfetches⟩ := (Option.any_eq_true _ _).mp hworker
  obtain ⟨view, action⟩ := i
  cases action with
  | cancel => exact absurd rfl hcancel
  | main input =>
    have hne : w ≠ .stopped := by
      rintro rfl
      simp [Worker.fetches] at hfetches
    have hstay : (advance ssl d (view, .main input)).1 = d := by
      simp only [advance, Download.step, mainStep_waits h.phase hw hne]
    rw [hstay]
    exact h.other rfl rfl rfl rfl rfl
  | worker j input =>
    by_cases hj : j = k
    · subst hj
      exact h.ownStep hw hfetches
    · have hother := @workerStep_others d ssl view.file j input
      refine h.other ?_ (@workerStep_frame d ssl view.file j input).2.1 (workerStep_holders _ _ _ _) hother.2
        (hother.1 k (Ne.symm hj))
      simp [own, Machine.event, hj]

theorem holders_nodup (d : Download) (piece : Nat) : (d.holders piece).Nodup := List.nodup_range.filter _

/-- The numbers that index the holders fit 64 bits. -/
theorem attempt_fits (hvalid : d.metadata.valid = true) (hpiece : piece < d.metadata.pieceCount)
    (hholders : (d.holders piece).length ≤ 2 ^ 60) {attempt : Nat}
    (hattempt : attempt < PASSES_PER_PIECE * (d.holders piece).length) : piece + attempt < 2 ^ 64 := by
  have hoffset := (FileMetadata.lt_pieceCount (FileMetadata.valid_count hvalid)).mp hpiece
  have hsize := d.metadata.size.toNat_lt
  simp only [PIECE_SIZE] at hoffset
  simp only [PASSES_PER_PIECE] at hattempt
  omega

/-- Nobody is asked but holders, and every round reaches each of them once. -/
theorem Retried.fair (h : Retried ssl circle k piece past d) :
    (∀ seeder ∈ past.filterMap (asked k), seeder ∈ circle) ∧
      ∀ i, i + circle.length ≤ (past.filterMap (asked k)).length →
        (((past.filterMap (asked k)).drop i).take circle.length).Perm circle := by
  obtain ⟨w, -, hstanding⟩ := h.worker
  have hturns : ∃ n, past.filterMap (asked k) = turns circle piece n := by
    cases w with
    | attempting p attempt => exact ⟨_, hstanding.2.2.1⟩
    | requesting p attempt seeder => exact ⟨_, hstanding.2.2.1⟩
    | writing p attempt data done => exact ⟨_, hstanding.2.2.1⟩
    | written p => exact ⟨_, hstanding.2.choose_spec.2.1⟩
    | returned p => exact ⟨_, hstanding.2.1⟩
    | _ => exact hstanding.elim
  obtain ⟨n, hn⟩ := hturns
  rw [hn]
  refine ⟨fun seeder hseeder => mem_of_mem_turns hseeder, fun i hi => ?_⟩
  by_cases hne : circle = []
  · simp [hne, turns, turn]
  · rw [length_turns hne] at hi
    rw [take_drop_turns hne piece hi]
    exact turns_perm circle _

/-- A call that has returned false has failed three times with every holder. -/
theorem Retried.exhausted (h : Retried ssl circle k piece past d) (hw : d.workers[k]? = some (.returned piece))
    (hnodup : circle.Nodup) :
    (∀ seeder ∈ circle, (past.filterMap (asked k)).count seeder = PASSES_PER_PIECE) ∧
      past.filterMap (verdict ssl k) = List.replicate (PASSES_PER_PIECE * circle.length) false := by
  obtain ⟨w, hw', hstanding⟩ := h.worker
  obtain rfl := Option.some.inj (hw.symm.trans hw')
  obtain ⟨-, hasks, hverdicts⟩ := hstanding
  refine ⟨fun seeder hseeder => ?_, hverdicts⟩
  rw [hasks, count_turns_rounds, List.count_eq_one_of_mem hnodup hseeder, Nat.mul_one]

/-- The first attempt that succeeds is the last one. -/
theorem Retried.succeeds_iff (h : Retried ssl circle k piece past d) :
    d.workers[k]? = some (.written piece) ↔ true ∈ past.filterMap (verdict ssl k) := by
  obtain ⟨w, hw, hstanding⟩ := h.worker
  rw [hw]
  have hfalse : ∀ n, true ∉ List.replicate n false := fun n hmem => by simpa using List.eq_of_mem_replicate hmem
  cases w with
  | attempting p attempt => simp [hstanding.2.2.2]
  | requesting p attempt seeder => simp [hstanding.2.2.2.1]
  | writing p attempt data done => simp [hstanding.2.2.2]
  | written p =>
    obtain ⟨rfl, attempt, -, -, hverdicts⟩ := hstanding
    simp [hverdicts]
  | returned p => simp [hstanding.2.2]
  | _ => exact hstanding.elim

/-- At most three rounds, after which the worker is out of its loop. -/
theorem Retried.bounded (h : Retried ssl circle k piece past d) :
    (past.filterMap (asked k)).length ≤ PASSES_PER_PIECE * circle.length ∧
      ((d.workers[k]?).any (Worker.fetches piece) = true ∨ d.workers[k]? = some (.returned piece) ∨
        d.workers[k]? = some (.written piece)) := by
  obtain ⟨w, hw, hstanding⟩ := h.worker
  rw [hw]
  have hlen : ∀ n ≤ PASSES_PER_PIECE * circle.length,
      (turns circle piece n).length ≤ PASSES_PER_PIECE * circle.length := by
    intro n hn
    by_cases hne : circle = []
    · simp [hne, turns, turn]
    · rw [length_turns hne]
      exact hn
  cases w with
  | attempting p attempt =>
    obtain ⟨rfl, hle, hasks, -⟩ := hstanding
    exact ⟨hasks ▸ hlen _ hle, Or.inl (by simp [Worker.fetches])⟩
  | requesting p attempt seeder =>
    obtain ⟨rfl, hlt, hasks, -⟩ := hstanding
    exact ⟨hasks ▸ hlen _ (Nat.le_of_lt hlt), Or.inl (by simp [Worker.fetches])⟩
  | writing p attempt data done =>
    obtain ⟨rfl, hlt, hasks, -⟩ := hstanding
    exact ⟨hasks ▸ hlen _ hlt, Or.inl (by simp [Worker.fetches])⟩
  | written p =>
    obtain ⟨rfl, attempt, hlt, hasks, -⟩ := hstanding
    exact ⟨hasks ▸ hlen _ hlt, Or.inr (Or.inr rfl)⟩
  | returned p =>
    obtain ⟨rfl, hasks, -⟩ := hstanding
    exact ⟨hasks ▸ hlen _ (Nat.le_refl _), Or.inr (Or.inl rfl)⟩
  | _ => exact hstanding.elim

/-- The seeder that is asked is the holder at its index, which is in range. -/
theorem Retried.index (h : Retried ssl circle k piece past d) {p attempt seeder : Nat}
    (hw : d.workers[k]? = some (.requesting p attempt seeder)) :
    p = piece ∧ attempt < PASSES_PER_PIECE * circle.length ∧ (p + attempt) % circle.length < circle.length ∧
      circle[(p + attempt) % circle.length]? = some seeder := by
  obtain ⟨w, hw', hstanding⟩ := h.worker
  obtain rfl := Option.some.inj (hw.symm.trans hw')
  obtain ⟨rfl, hlt, -, -, hturn⟩ := hstanding
  exact ⟨rfl, hlt, Nat.mod_lt _ (by simp only [PASSES_PER_PIECE] at hlt; omega), hturn⟩

/-- A call of `fetchPiece` that nobody cancels, whatever the other threads do meanwhile: it asks holders of the piece
only, each with its own access and once in every round; it returns false when it has failed three times with each of
them, and ends as soon as an attempt succeeds; and no index is out of range. -/
theorem retry_schedule (ssl : OpenSsl) (d : Download) (k piece : Nat) (inputs : List (View × Action))
    (hvalid : d.metadata.valid = true) (hpiece : piece < d.metadata.pieceCount) (hphase : d.phase = .fetching)
    (hcancelled : d.cancelled = false) (hstart : d.workers[k]? = some (.attempting piece 0))
    (hrun : Machine.Along (advance ssl) (Calling k piece) d inputs) :
    let past := Machine.events (advance ssl) d inputs
    let worker := (Machine.run (advance ssl) d inputs).workers[k]?
    let asks := past.filterMap (asked k)
    let verdicts := past.filterMap (verdict ssl k)
    let h := (d.holders piece).length
    (∀ seeder ∈ asks, seeder ∈ d.holders piece ∧ seeder < d.seeders.length) ∧
    (∀ e ∈ past, ∀ seeder, asked k e = some seeder → ∃ now located outcome,
      e.input.2 = .worker k (.reply now located outcome) ∧ e.after.seeders = e.before.seederAt seeder now located) ∧
    (∀ i, i + h ≤ asks.length → ∀ seeder ∈ d.holders piece, ((asks.drop i).take h).count seeder = 1) ∧
    (worker = some (.returned piece) → (∀ seeder ∈ d.holders piece, asks.count seeder = 3) ∧
      verdicts = List.replicate (3 * h) false) ∧
    (worker = some (.written piece) ↔ true ∈ verdicts) ∧
    (asks.length ≤ 3 * h ∧ (worker.any (Worker.fetches piece) = true ∨ worker = some (.returned piece) ∨
      worker = some (.written piece))) ∧
    (d.holders piece = [] → ∀ file input,
      (d.workerStep ssl file k input).1.workers[k]? = some (.returned piece)) ∧
    ∀ e ∈ past, ∀ p attempt seeder, e.before.workers[k]? = some (.requesting p attempt seeder) →
      e.before.holders p = d.holders piece ∧ (p + attempt) % h < h ∧
        (d.holders piece)[(p + attempt) % h]? = some seeder ∧ (h ≤ 2 ^ 60 → p + attempt < 2 ^ 64) := by
  intro past worker asks verdicts h
  have hbegin : Retried ssl (d.holders piece) k piece [] d :=
    ⟨hphase, rfl, hcancelled, _, hstart, rfl, Nat.zero_le _, rfl, rfl⟩
  have hend := Machine.history_along (P := fun past d' => Retried ssl (d.holders piece) k piece past d') hbegin
    (fun past t i ht hi => ht.step hi) hrun
  obtain ⟨hholders, hwindow⟩ := hend.fair
  have hevents := Machine.events_along (P := fun d' => ∃ past, Retried ssl (d.holders piece) k piece past d')
    ⟨[], hbegin⟩ (fun t i ht hi => ⟨_, ht.choose_spec.step hi⟩) hrun
  refine ⟨fun seeder hseeder => ⟨hholders seeder hseeder, ?_⟩, fun e he seeder hasked => ?_,
    fun i hi seeder hseeder => ?_, fun hw => ?_, hend.succeeds_iff, hend.bounded, fun hnone file input => ?_,
    fun e he p attempt seeder hw => ?_⟩
  · exact List.mem_range.mp (List.mem_of_mem_filter (hholders seeder hseeder))
  · obtain ⟨p, attempt, now, located, outcome, hw, hinput⟩ := asked_eq_some hasked
    refine ⟨now, located, outcome, hinput, ?_⟩
    rw [(hevents e he).2.2]
    simp only [Machine.event, advance, Download.step, hinput, workerStep, hw, answerStep_seeders]
  · rw [(hwindow i hi).count_eq, List.count_eq_one_of_mem (holders_nodup d piece) hseeder]
  · exact hend.exhausted hw (holders_nodup d piece)
  · have hk := (List.getElem?_eq_some_iff.mp hstart).1
    simp only [workerStep, hstart]
    simp [hnone, setWorker, hk]
  · obtain ⟨⟨earlier, hbefore⟩, -, -⟩ := hevents e he
    obtain ⟨rfl, hlt, hrange, hindex⟩ := hbefore.index hw
    exact ⟨hbefore.holders, hrange, hindex, fun hfits => attempt_fits hvalid hpiece hfits hlt⟩

section Example

/-- Two seeders have the only piece, and a worker begins to fetch it. -/
def twoHolders : Download :=
  { create [] [] [] honestMetadata [nobody, nobody] with
    phase := .fetching, seederBitmaps := [[true], [true]], workers := [.attempting 0 0] }

/-- The first one cannot be reached, the second one delivers. -/
def secondDelivers : List (View × Action) := [
  (newFile, .worker 0 .ok), (newFile, .worker 0 (.reply 0 none (.networkFailure, []))), (newFile, .worker 0 .ok),
  (newFile, .worker 0 (.reply 0 none (.success, lit "a"))), (newFile, .worker 0 (.io (.upTo 0))),
  (newFile, .worker 0 .ok)]

theorem retry_schedule_two :
    (Machine.run (advance sha1Recording.replay) twoHolders secondDelivers).workers[0]? = some (.written 0) ∧
      ∀ seeder ∈ twoHolders.holders 0,
        (((Machine.events (advance sha1Recording.replay) twoHolders secondDelivers).filterMap (asked 0)).take 2).count
          seeder = 1 := by
  have hrun : honestMetadata.valid = true ∧
      Machine.Along (advance sha1Recording.replay) (Calling 0 0) twoHolders secondDelivers ∧
      true ∈ (Machine.events (advance sha1Recording.replay) twoHolders secondDelivers).filterMap
        (verdict sha1Recording.replay 0) ∧
      ((Machine.events (advance sha1Recording.replay) twoHolders secondDelivers).filterMap (asked 0)).length = 2 := by
    decide +kernel
  obtain ⟨hvalid, hcalling, hdelivered, hlen⟩ := hrun
  obtain ⟨-, -, hwindow, -, hwritten, -⟩ := retry_schedule sha1Recording.replay twoHolders 0 0 secondDelivers hvalid
    (by decide) rfl rfl rfl hcalling
  exact ⟨hwritten.mpr hdelivered, fun seeder hseeder => hwindow 0 (by rw [hlen]; decide) seeder hseeder⟩

end Example

end Download

end TorrentAtlas
