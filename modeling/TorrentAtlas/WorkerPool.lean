import TorrentAtlas.Library.WorkQueue
import TorrentAtlas.Retry

/-!
# The worker pool

The workers of `fetchPieces` claim positions of `order` from a shared counter, fetch, and
count what they have fetched. `Pool` keeps the books of a run: every piece claimed is held
by one worker, or its fetch has returned true, or it has been given up. A fetch of a piece
returns true at the step that leaves `Worker.counted`.
-/
namespace TorrentAtlas

open Encoding Crypto PieceFile WorkQueue

namespace Download

/-- The worker that a step is one of, where it stood. -/
def actor (e : DownloadEvent) : Option Worker :=
  match e.input.2 with
  | .worker k _ => e.before.workers[k]?
  | _ => none

/-- The position of the order that a worker's step claims. -/
def Worker.claims (d : Download) : Worker → Option Nat
  | .claiming => if d.next < d.order.length then some d.next else none
  | _ => none

/-- The piece that a worker has counted, but whose fetch has not returned: it returns true at the worker's next step. -/
def Worker.justCounted : Worker → Option Nat
  | .counted piece => some piece
  | _ => none

/-- The piece that a worker's step gives up after `fetchPiece` has returned false: because of a cancellation, or by
setting `failed`. -/
def Worker.givesUp (d : Download) : Worker → Option Nat
  | .returned piece => if d.cancelled then some piece else none
  | .recording piece => some piece
  | _ => none

def claimed (e : DownloadEvent) : Option Nat := (actor e).bind (Worker.claims e.before)

/-- The piece for which `fetchPiece` returns true. -/
def fetched (e : DownloadEvent) : Option Nat := (actor e).bind Worker.justCounted

def gaveUp (e : DownloadEvent) : Option Nat := (actor e).bind (Worker.givesUp e.before)

/-- The books of the queue `order`. -/
def books (d : Download) (finished dropped : List Nat) : Books Nat :=
  ⟨d.next, finished, dropped, d.workers.filterMap Worker.piece⟩

/-- Where `run` and the pool stand with each other. -/
def PhasePool (d : Download) (finished : List Nat) : Phase → Prop
  | .starting | .opening _ | .truncating _ => d.order = [] ∧ d.workers = [] ∧ d.verified = [] ∧ d.completed = []
  | .reading _ piece _ => d.order = [] ∧ d.workers = [] ∧ d.completed = [] ∧
      ∀ i, piece ≤ i → d.verified.getD i false = false
  | .asking _ | .publishing | .sharing => d.order = [] ∧ d.workers = []
  | .fetching => d.order ≠ [] → d.workers ≠ []
  | .finished (some _) => True
  | _ => d.order.Perm finished ∧ d.order.length ≤ d.next

/-- The positions claimed, the pieces fetched and the pieces given up in a run that has come to `d`. -/
structure Pool (claims finished dropped : List Nat) (d : Download) : Prop where
  claims : claims = List.range (min d.next d.order.length)
  accounted : Accounted d.order (d.books finished dropped)
  kept : d.kept.length = d.resumedPieces
  completed : d.phase.isPrepared = true →
    d.completed.Perm (d.kept ++ (finished ++ d.workers.filterMap Worker.justCounted))
  bounded : d.completed.length ≤ d.metadata.pieceCount
  recorded : d.pieceFailed = true → dropped ≠ []
  excused : d.cancelled = false → d.pieceFailed = false → dropped = []
  stopped : d.cancelled = false → .stopped ∈ d.workers → d.order.length ≤ d.next
  seeders : d.seeders ≠ []
  phase : PhasePool d finished d.phase

variable {d : Download} {ssl : OpenSsl} {claims finished dropped : List Nat}

/-- Everything of a download that the pool is about. -/
def poolState (d : Download) :
    (List Nat × Nat × List Worker × Bool × Bool) × List Bool × List Nat × Nat × FileMetadata :=
  ((d.order, d.next, d.workers, d.pieceFailed, d.cancelled), d.verified, d.completed, d.resumedPieces, d.metadata)

theorem PhasePool.frame {d' : Download} {phase : Phase} (h : PhasePool d finished phase) (horder : d'.order = d.order)
    (hnext : d'.next = d.next) (hworkers : d'.workers = d.workers) (hverified : d'.verified = d.verified)
    (hcompleted : d'.completed = d.completed) : PhasePool d' finished phase := by
  cases phase with
  | finished failure =>
    cases failure with
    | none => simpa only [PhasePool, horder, hnext] using h
    | some reason => trivial
  | _ => simpa only [PhasePool, horder, hnext, hworkers, hverified, hcompleted] using h

/-- A step that leaves the pool alone moves on to a phase that fits it. -/
theorem Pool.move {d' : Download} (h : Pool claims finished dropped d) (hsame : d'.poolState = d.poolState)
    (hseeders : d'.seeders ≠ [])
    (hprepared : d'.phase.isPrepared = true → d.phase.isPrepared = true ∨ d.completed = [] ∧ d.verified = [] ∧
      finished = [] ∧ d.workers = [])
    (hphase : PhasePool d finished d'.phase) : Pool claims finished dropped d' := by
  simp only [poolState, Prod.mk.injEq] at hsame
  obtain ⟨⟨horder, hnext, hworkers, hfailed, hcancelled⟩, hverified, hcompleted, hresumed, hmetadata⟩ := hsame
  have hkept : d'.kept = d.kept := by simp only [Download.kept, hverified]
  have hbooks : d'.books finished dropped = d.books finished dropped := by simp only [books, hnext, hworkers]
  refine ⟨by rw [hnext, horder]; exact h.claims, by rw [horder, hbooks]; exact h.accounted,
    by rw [hkept, hresumed]; exact h.kept, fun hp => ?_, by rw [hcompleted, hmetadata]; exact h.bounded,
    by rw [hfailed]; exact h.recorded, by rw [hcancelled, hfailed]; exact h.excused,
    by rw [hcancelled, hworkers, horder, hnext]; exact h.stopped, hseeders, ?_⟩
  · rw [hcompleted, hkept, hworkers]
    rcases hprepared hp with hp | ⟨hnone, hnew, hfinished, hidle⟩
    · exact h.completed hp
    · simp [hnone, hfinished, hidle, Download.kept, hnew]
  · exact hphase.frame horder hnext hworkers hverified hcompleted

/-- Without an order nothing has been claimed. -/
theorem Pool.untouched (h : Pool claims finished dropped d) (horder : d.order = []) :
    claims = [] ∧ finished = [] ∧ dropped = [] := by
  have hlen := h.accounted.length_le
  simp only [books, horder, List.length_nil, Nat.le_zero, Nat.add_eq_zero_iff, List.length_eq_zero_iff] at hlen
  exact ⟨by simp [h.claims, horder], hlen.1, hlen.2.1⟩

section Main

theorem kept_set {piece : Nat} (hpiece : piece < d.verified.length) (hnew : d.verified.getD piece false = false) :
    (kept { d with verified := d.verified.set piece true }).length = d.kept.length + 1 := by
  have hothers : ∀ j, j ≠ piece → (d.verified.set piece true).getD j false = d.verified.getD j false := by
    intro j hj
    simp only [List.getD_eq_getElem?_getD, List.getElem?_set_ne (Ne.symm hj)]
  have hcount := length_filter_range hpiece hnew hothers
  have hset : (d.verified.set piece true).getD piece false = true := by simp [hpiece]
  rw [hset, Bool.toNat_true] at hcount
  simp only [kept, List.length_set]
  exact hcount

theorem length_kept_le (d : Download) : d.kept.length ≤ d.verified.length := by
  have hle := List.length_filter_le (fun piece => d.verified.getD piece false) (List.range d.verified.length)
  simpa only [kept, List.length_range] using hle

theorem Pool.prepareStep {file : Bytes} {resuming : Bool} {piece : Nat} {data : Bytes} {input : Input}
    (h : Pool claims finished dropped d) (hphase : d.phase = .reading resuming piece data)
    (hcount : d.verified.length = d.metadata.pieceCount) :
    Pool claims finished dropped (d.prepareStep ssl file resuming piece data input) := by
  have hok := h.phase
  rw [hphase] at hok
  obtain ⟨horder, hworkers, hnone, hlater⟩ := hok
  obtain ⟨hclaims, hfinished, hdropped⟩ := h.untouched horder
  have hskip : Pool claims finished dropped { d with phase := .reading resuming (piece + 1) [] } :=
    h.move rfl h.seeders (by simp [Phase.isPrepared]) ⟨horder, hworkers, hnone, fun i hi => hlater i (by omega)⟩
  unfold Download.prepareStep
  split
  · refine ⟨h.claims, h.accounted, h.kept, fun _ => ?_, ?_, h.recorded, h.excused, h.stopped, h.seeders, horder,
      hworkers⟩
    · change d.kept.Perm (d.kept ++ (finished ++ d.workers.filterMap Worker.justCounted))
      simp [hfinished, hworkers]
    · change d.kept.length ≤ d.metadata.pieceCount
      rw [← hcount]
      exact length_kept_le d
  · next hmore =>
    simp only [Bool.or_eq_true, decide_eq_true_eq, not_or, not_le] at hmore
    split
    · split
      · refine ⟨h.claims, h.accounted, ?_, by simp [Phase.isPrepared], h.bounded, h.recorded, h.excused, h.stopped,
          h.seeders, horder, hworkers, hnone, fun i hi => ?_⟩
        · change (Download.kept { d with verified := d.verified.set piece true }).length = d.resumedPieces + 1
          rw [kept_set hmore.2 (hlater piece (Nat.le_refl _)), h.kept]
        · have hne : piece ≠ i := by omega
          change (d.verified.set piece true).getD i false = false
          rw [List.getD_eq_getElem?_getD, List.getElem?_set_ne hne, ← List.getD_eq_getElem?_getD]
          exact hlater i (by omega)
      · exact hskip
    · split
      · split
        · exact hskip
        · exact h.move rfl h.seeders (by simp [Phase.isPrepared]) ⟨horder, hworkers, hnone, hlater⟩
      · exact h

theorem Pool.bitmapStep {seeder : Nat} {input : Input} (h : Pool claims finished dropped d)
    (hphase : d.phase = .asking seeder) : Pool claims finished dropped (d.bitmapStep seeder input) := by
  have hok := h.phase
  rw [hphase] at hok
  have hprepared : d.phase.isPrepared = true := by rw [hphase]; rfl
  unfold Download.bitmapStep
  split
  · exact h.move rfl h.seeders (fun _ => Or.inl hprepared) hok
  · split
    · dsimp only
      split
      · exact h.move rfl (seederAt_ne_nil h.seeders) (fun _ => Or.inl hprepared) hok
      · exact h.move rfl (seederAt_ne_nil h.seeders) (fun _ => Or.inl hprepared) hok
    · exact h

theorem Pool.start (h : Pool claims finished dropped d) (hphase : d.phase = .sharing) :
    Pool claims finished dropped
      { d with
        phase := .fetching
        order := d.rarestFirst
        next := 0
        pieceFailed := false
        workers := List.replicate (d.threadCount d.rarestFirst) .looping } := by
  have hok := h.phase
  rw [hphase] at hok
  obtain ⟨hclaims, hfinished, hdropped⟩ := h.untouched hok.1
  have hnobody : ∀ f : Worker → Option Nat, f .looping = none →
      (List.replicate (d.threadCount d.rarestFirst) Worker.looping).filterMap f = [] := by
    intro f hf
    rw [List.filterMap_eq_nil_iff]
    intro w hw
    rw [List.eq_of_mem_replicate hw, hf]
  refine ⟨by simp [hclaims], ?_, h.kept, fun _ => ?_, h.bounded, by simp, fun _ _ => hdropped, fun _ hw => ?_,
    h.seeders, fun hne => ?_⟩
  · have hheld := hnobody Worker.piece rfl
    simp only [Accounted, books, List.take_zero, hfinished, hdropped, hheld]
    exact List.Perm.refl _
  · have hbefore := h.completed (by rw [hphase]; rfl)
    rw [hok.2] at hbefore
    have hcounted := hnobody Worker.justCounted rfl
    dsimp only
    rw [hcounted]
    exact hbefore
  · have := List.eq_of_mem_replicate hw
    simp at this
  · have hseeders := List.length_pos_iff.mpr h.seeders
    have horder : 0 < d.rarestFirst.length := List.length_pos_iff.mpr hne
    simp only [ne_eq, List.replicate_eq_nil_iff, threadCount, MAX_THREADS]
    omega

/-- When the workers have stopped, uncancelled, the counter is past the end of the order. -/
theorem Pool.join (h : Pool claims finished dropped d) (hphase : d.phase = .fetching)
    (hstopped : ∀ w ∈ d.workers, w = .stopped) (hcancelled : d.cancelled = false) :
    d.order.length ≤ d.next ∧ d.workers.filterMap Worker.piece = [] := by
  have hok := h.phase
  rw [hphase] at hok
  refine ⟨?_, ?_⟩
  · by_cases hnil : d.order = []
    · simp [hnil]
    · obtain ⟨w, hw⟩ := List.exists_mem_of_ne_nil _ (hok hnil)
      exact h.stopped hcancelled (hstopped w hw ▸ hw)
  · rw [List.filterMap_eq_nil_iff]
    intro w hw
    rw [hstopped w hw]
    rfl

theorem Pool.truncate {resuming : Bool} (h : Pool claims finished dropped d) (hphase : d.phase = .truncating resuming) :
    Pool claims finished dropped
      { d with phase := .reading resuming 0 [], verified := List.replicate d.metadata.pieceCount false } := by
  have hok := h.phase
  rw [hphase] at hok
  obtain ⟨horder, hworkers, hverified, hnone⟩ := hok
  have hblank : ∀ i, (List.replicate d.metadata.pieceCount false).getD i false = false := by
    intro i
    rw [List.getD_eq_getElem?_getD, List.getElem?_replicate]
    split <;> rfl
  refine ⟨h.claims, h.accounted, ?_, by simp [Phase.isPrepared], h.bounded, h.recorded, h.excused, h.stopped,
    h.seeders, horder, hworkers, hnone, fun i _ => hblank i⟩
  have hzero : d.resumedPieces = 0 := by rw [← h.kept]; simp [Download.kept, hverified]
  have hnew : Download.kept { d with verified := List.replicate d.metadata.pieceCount false } = [] := by
    rw [Download.kept, List.filter_eq_nil_iff]
    intro i _
    rw [hblank i]
    simp
  change (Download.kept { d with verified := List.replicate d.metadata.pieceCount false }).length = d.resumedPieces
  rw [hnew, hzero]
  rfl

theorem Pool.mainStep {view : View} {input : Input} (h : Pool claims finished dropped d)
    (hs : PhaseSurveyed d d.phase) : Pool claims finished dropped (d.mainStep ssl view input).1 := by
  have hok := h.phase
  have hleft : ∀ phase, d.phase.isPrepared = true → PhasePool d finished phase →
      Pool claims finished dropped { d with phase } :=
    fun phase hprepared hp => h.move rfl h.seeders (fun _ => Or.inl hprepared) hp
  have hcases := mainStep_cases ssl d view input
  generalize d.mainStep ssl view input = result at hcases ⊢
  cases hcases with
  | stay => exact h
  | look hphase | opened hphase =>
    rw [hphase] at hok
    exact h.move rfl h.seeders (by simp [Phase.isPrepared]) hok
  | notOpened hphase | notTruncated hphase =>
    rw [hphase] at hok
    obtain ⟨horder, hworkers, hverified, hnone⟩ := hok
    exact h.move rfl h.seeders (fun _ => Or.inr ⟨hnone, hverified, (h.untouched horder).2.1, hworkers⟩) trivial
  | truncated hphase => exact h.truncate hphase
  | prepare hphase =>
    rw [hphase] at hs
    exact h.prepareStep hphase hs
  | bitmap hphase => exact h.bitmapStep hphase
  | start hphase => exact h.start hphase
  | join hphase hstopped hcancelled hfailed =>
    obtain ⟨hend, hheld⟩ := h.join hphase hstopped hcancelled
    have hdropped := h.excused hcancelled hfailed
    exact hleft _ (by rw [hphase]; rfl) ⟨h.accounted.all hend hdropped hheld, hend⟩
  | giveUp hphase | notChecked hphase | notHashed hphase | mismatch hphase | notMoved hphase =>
    exact hleft _ (by rw [hphase]; rfl) trivial
  | publish hphase | check hphase | hashOn hphase | accept hphase | move hphase | shareAgain hphase | add hphase
  | finish hphase =>
    rw [hphase] at hok
    exact hleft _ (by rw [hphase]; rfl) hok

end Main

section Workers

variable {k : Nat} {w w' : Worker}

/-- What is kept and what is missing make up the file. -/
theorem Surveyed.partition (h : d.Surveyed) : d.kept.length + d.rarestFirst.length = d.metadata.pieceCount := by
  have hsplit := List.length_eq_length_filter_add (fun piece => d.verified.getD piece false)
    (l := List.range d.verified.length)
  rw [List.length_range, h.verified] at hsplit
  rw [kept, rarestFirst, List.length_insertionSort, h.verified]
  exact hsplit.symm

theorem length_justCounted_le (workers : List Worker) :
    (workers.filterMap Worker.justCounted).length ≤ (workers.filterMap Worker.piece).length := by
  induction workers with
  | nil => exact Nat.le_refl _
  | cons w workers ih =>
    cases w <;> simp only [List.filterMap_cons, Worker.justCounted, Worker.piece, List.length_cons] <;> omega

/-- No more is counted than is kept or was missing. -/
theorem completed_le (hs : d.Surveyed) (horder : d.order = d.rarestFirst)
    (haccounted : Accounted d.order (d.books finished dropped))
    (hcompleted : d.completed.Perm (d.kept ++ (finished ++ d.workers.filterMap Worker.justCounted))) :
    d.completed.length ≤ d.metadata.pieceCount := by
  have hpartition := hs.partition
  have hcounted := length_justCounted_le d.workers
  have hheld := haccounted.length_le
  have hlen := hcompleted.length_eq
  rw [horder] at hheld
  simp only [books] at hheld
  simp only [List.length_append] at hlen
  omega

/-- A worker that does not stop, or may, leaves the stopped workers in order. -/
theorem Pool.stop (h : Pool claims finished dropped d) (k : Nat) (w' : Worker)
    (hstop : w' = .stopped → .stopped ∈ d.workers ∨ d.cancelled = true ∨ d.order.length ≤ d.next)
    (hcancelled : d.cancelled = false) (hmem : .stopped ∈ d.workers.set k w') : d.order.length ≤ d.next := by
  rcases List.mem_or_eq_of_mem_set hmem with hmem | heq
  · exact h.stopped hcancelled hmem
  · rcases hstop heq.symm with hmem | htrue | hend
    · exact h.stopped hcancelled hmem
    · exact absurd (htrue.symm.trans hcancelled) (by simp)
    · exact hend

/-- A worker that moves leaves the pool manned. -/
theorem Pool.manned {d' : Download} {finished' : List Nat} (h : Pool claims finished dropped d)
    (hphase : d.phase = .fetching) (hsame : d'.phase = d.phase) (horder : d'.order = d.order)
    (hworkers : d'.workers = d.workers.set k w') : PhasePool d' finished' d'.phase := by
  have hok := h.phase
  rw [hphase] at hok
  rw [hsame, hphase]
  intro hne
  rw [horder] at hne
  rw [hworkers, ne_eq, List.set_eq_nil_iff]
  exact hok hne

/-- The account of what is counted, when a worker moves that counts nothing. -/
theorem Pool.same_count (h : Pool claims finished dropped d) (hw : d.workers[k]? = some w)
    (hcounted : w'.justCounted = w.justCounted) (hp : d.phase.isPrepared = true) :
    d.completed.Perm (d.kept ++ (finished ++ (d.workers.set k w').filterMap Worker.justCounted)) :=
  (h.completed hp).trans (((held_same hw hcounted).symm.append_left _).append_left _)

/-- A worker moves on with its piece, or without one. -/
theorem Pool.pass (h : Pool claims finished dropped d) (hphase : d.phase = .fetching) (hw : d.workers[k]? = some w)
    (hpiece : w'.piece = w.piece) (hcounted : w'.justCounted = w.justCounted)
    (hstop : w' = .stopped → .stopped ∈ d.workers ∨ d.cancelled = true ∨ d.order.length ≤ d.next) :
    Pool claims finished dropped (d.setWorker k w') where
  claims := h.claims
  accounted := h.accounted.pass (held_same hw hpiece)
  kept := h.kept
  completed := h.same_count hw hcounted
  bounded := h.bounded
  recorded := h.recorded
  excused := h.excused
  stopped := h.stop k w' hstop
  seeders := h.seeders
  phase := h.manned hphase rfl rfl rfl

/-- The next position is claimed. -/
theorem Pool.claim (h : Pool claims finished dropped d) (hphase : d.phase = .fetching)
    (hw : d.workers[k]? = some .claiming) {piece : Nat} (hnext : d.order[d.next]? = some piece) :
    Pool (claims ++ [d.next]) finished dropped
      ({ d with next := d.next + 1 }.setWorker k (.attempting piece 0)) where
  claims := by
    have hlt : d.next < d.order.length := (List.getElem?_eq_some_iff.mp hnext).1
    change claims ++ [d.next] = List.range (min (d.next + 1) d.order.length)
    rw [h.claims, Nat.min_eq_left (Nat.le_of_lt hlt), Nat.min_eq_left hlt, List.range_succ]
  accounted := h.accounted.take hnext (held_gain hw rfl rfl)
  kept := h.kept
  completed := h.same_count hw rfl
  bounded := h.bounded
  recorded := h.recorded
  excused := h.excused
  stopped hc hmem := Nat.le_succ_of_le (h.stop k (.attempting piece 0) (by simp) hc hmem)
  seeders := h.seeders
  phase := h.manned hphase rfl rfl rfl

/-- The counter is past the end, and the worker stops. -/
theorem Pool.miss (h : Pool claims finished dropped d) (hphase : d.phase = .fetching)
    (hw : d.workers[k]? = some .claiming) (hnext : d.order[d.next]? = none) :
    Pool claims finished dropped ({ d with next := d.next + 1 }.setWorker k .stopped) := by
  have hend : d.order.length ≤ d.next := List.getElem?_eq_none_iff.mp hnext
  have hpass : Pool claims finished dropped (d.setWorker k .stopped) :=
    h.pass hphase hw rfl rfl (fun _ => Or.inr (Or.inr hend))
  refine ⟨?_, hpass.accounted.miss hnext, hpass.kept, hpass.completed, hpass.bounded, hpass.recorded, hpass.excused,
    fun hc hmem => Nat.le_succ_of_le (hpass.stopped hc hmem), hpass.seeders, h.manned hphase rfl rfl rfl⟩
  change claims = List.range (min (d.next + 1) d.order.length)
  rw [h.claims, Nat.min_eq_right hend, Nat.min_eq_right (Nat.le_succ_of_le hend)]

/-- A fetched piece is counted. -/
theorem Pool.count (h : Pool claims finished dropped d) (hphase : d.phase = .fetching) (hs : d.Surveyed)
    (horder : d.order = d.rarestFirst) {piece : Nat} (hw : d.workers[k]? = some (.written piece)) :
    Pool claims finished dropped { d.setWorker k (.counted piece) with completed := d.completed ++ [piece] } := by
  have haccounted : Accounted d.order (books { d.setWorker k (.counted piece) with completed := d.completed ++ [piece] }
      finished dropped) := h.accounted.pass (held_same hw rfl)
  have hcompleted : (d.completed ++ [piece]).Perm
      (d.kept ++ (finished ++ (d.workers.set k (.counted piece)).filterMap Worker.justCounted)) := by
    have hgain : ((d.workers.set k (.counted piece)).filterMap Worker.justCounted).Perm
        (d.workers.filterMap Worker.justCounted ++ [piece]) :=
      (held_gain (f := Worker.justCounted) (x := piece) hw rfl rfl).trans (List.perm_append_singleton _ _).symm
    have hbefore := (h.completed (by rw [hphase]; rfl)).append_right [piece]
    rw [List.append_assoc, List.append_assoc] at hbefore
    exact hbefore.trans ((hgain.symm.append_left _).append_left _)
  refine ⟨h.claims, haccounted, h.kept, fun _ => hcompleted, ?_, h.recorded, h.excused,
    h.stop k (.counted piece) (by simp), h.seeders, h.manned hphase rfl rfl rfl⟩
  exact completed_le (d := { d.setWorker k (.counted piece) with completed := d.completed ++ [piece] })
    (hs.frame rfl rfl rfl rfl rfl) horder haccounted hcompleted

/-- A fetch returns true. -/
theorem Pool.finish (h : Pool claims finished dropped d) (hphase : d.phase = .fetching) {piece : Nat}
    (hw : d.workers[k]? = some (.counted piece)) :
    Pool claims (finished ++ [piece]) dropped (d.setWorker k .looping) where
  claims := h.claims
  accounted := h.accounted.finish (held_loss hw rfl rfl)
  kept := h.kept
  completed hp := by
    have hloss : (d.workers.filterMap Worker.justCounted).Perm
        (piece :: (d.workers.set k .looping).filterMap Worker.justCounted) := held_loss hw rfl rfl
    change d.completed.Perm
      (d.kept ++ (finished ++ [piece] ++ (d.workers.set k .looping).filterMap Worker.justCounted))
    rw [List.append_assoc]
    exact (h.completed hp).trans ((hloss.append_left _).append_left _)
  bounded := h.bounded
  recorded := h.recorded
  excused := h.excused
  stopped := h.stop k .looping (by simp)
  seeders := h.seeders
  phase := h.manned hphase rfl rfl rfl

/-- A piece is given up, which is recorded unless the download is cancelled. -/
theorem Pool.drop (h : Pool claims finished dropped d) (hphase : d.phase = .fetching) (failed : Bool) {piece : Nat}
    (hw : d.workers[k]? = some w) (hpiece : w.piece = some piece) (hcounted : w.justCounted = none)
    (hfailed : d.cancelled = false → failed = true) :
    Pool claims finished (dropped ++ [piece]) { d.setWorker k .looping with pieceFailed := failed } where
  claims := h.claims
  accounted := h.accounted.drop (held_loss hw hpiece rfl)
  kept := h.kept
  completed := h.same_count hw hcounted.symm
  bounded := h.bounded
  recorded _ := by simp
  excused hc hf := absurd (hfailed hc) (by simpa using hf)
  stopped := h.stop k .looping (by simp)
  seeders := h.seeders
  phase := h.manned hphase rfl rfl rfl

/-- A worker has its answer: the seeders may have been renewed, and a failed hash is counted. -/
theorem Pool.answerStep (h : Pool claims finished dropped d) (hphase : d.phase = .fetching) {piece attempt seeder : Nat}
    (hw : d.workers[k]? = some (.requesting piece attempt seeder)) (now : Int) (located : Option (List SeederAccess))
    (outcome : Outcome) : Pool claims finished dropped (d.answerStep ssl k piece attempt seeder now located outcome) := by
  have hturn : ∀ v : Worker, v.piece = some piece → v.justCounted = none → v ≠ .stopped →
      Pool claims finished dropped (d.setWorker k v) :=
    fun v hpiece hcounted hgoing => h.pass hphase hw hpiece hcounted (fun hstop => absurd hstop hgoing)
  have hprepared : d.phase.isPrepared = true := by rw [hphase]; rfl
  have hseeders := fun seeder => @seederAt_ne_nil d seeder now located h.seeders
  unfold Download.answerStep
  dsimp only
  split
  · next data _ =>
    have hgo := hturn (.writing piece attempt data 0) rfl rfl (by simp)
    exact hgo.move rfl (hseeders _) (fun _ => Or.inl hprepared) hgo.phase
  · have hgo := hturn (.attempting piece (attempt + 1)) rfl rfl (by simp)
    exact hgo.move rfl (hseeders _) (fun _ => Or.inl hprepared) hgo.phase
  · have hgo := hturn (.attempting piece (attempt + 1)) rfl rfl (by simp)
    exact hgo.move rfl (hseeders _) (fun _ => Or.inl hprepared) hgo.phase

end Workers

section Runs

/-- The books of a run that has come to `d`. -/
def Booked (past : List DownloadEvent) (d : Download) : Prop :=
  Pool (past.filterMap claimed) (past.filterMap fetched) (past.filterMap gaveUp) d

variable {past : List DownloadEvent}

theorem booked_concat {e : DownloadEvent} {d' : Download}
    (h : Pool (past.filterMap claimed ++ (claimed e).toList) (past.filterMap fetched ++ (fetched e).toList)
      (past.filterMap gaveUp ++ (gaveUp e).toList) d') : Booked (past ++ [e]) d' := by
  have hlast : ∀ f : DownloadEvent → Option Nat, (past ++ [e]).filterMap f = past.filterMap f ++ (f e).toList := by
    intro f
    rw [List.filterMap_append, List.filterMap_cons]
    cases f e <;> rfl
  rw [Booked, hlast, hlast, hlast]
  exact h

/-- A step of nobody in the pool. -/
theorem Booked.away {e : DownloadEvent} {d' : Download} (hactor : actor e = none)
    (h : Pool (past.filterMap claimed) (past.filterMap fetched) (past.filterMap gaveUp) d') :
    Booked (past ++ [e]) d' := by
  refine booked_concat ?_
  simpa only [claimed, fetched, gaveUp, hactor, Option.bind_none, Option.toList_none, List.append_nil] using h

/-- A worker's step is entered by where it stands. -/
theorem Booked.enter {e : DownloadEvent} {w : Worker} {d' : Download} (hactor : actor e = some w)
    (h : Pool (past.filterMap claimed ++ (w.claims e.before).toList) (past.filterMap fetched ++ w.justCounted.toList)
      (past.filterMap gaveUp ++ (w.givesUp e.before).toList) d') : Booked (past ++ [e]) d' := by
  refine booked_concat ?_
  simpa only [claimed, fetched, gaveUp, hactor, Option.bind_some] using h

/-- A worker's step that enters nothing. -/
theorem Booked.silent {e : DownloadEvent} {w : Worker} {d' : Download} (hactor : actor e = some w)
    (hclaims : w.claims e.before = none) (hcounted : w.justCounted = none) (hgives : w.givesUp e.before = none)
    (h : Pool (past.filterMap claimed) (past.filterMap fetched) (past.filterMap gaveUp) d') :
    Booked (past ++ [e]) d' := by
  refine Booked.enter hactor ?_
  simpa only [hclaims, hcounted, hgives, Option.toList_none, List.append_nil] using h

/-- A step of a worker, by where it stands. -/
theorem Booked.workerStep {view : View} {k : Nat} {input : Input} (h : Booked past d) (hphase : d.phase = .fetching)
    (hs : d.Surveyed) (horder : d.order = d.rarestFirst) :
    Booked (past ++ [Machine.event (advance ssl) d (view, .worker k input)])
      (d.workerStep ssl view.file k input).1 := by
  have hpool : Pool (past.filterMap claimed) (past.filterMap fetched) (past.filterMap gaveUp) d := h
  have hactor : ∀ {w}, d.workers[k]? = w → actor (Machine.event (advance ssl) d (view, .worker k input)) = w := id
  have hpass : ∀ {w w' : Worker}, d.workers[k]? = some w → w'.piece = w.piece → w'.justCounted = w.justCounted →
      w' ≠ .stopped →
        Pool (past.filterMap claimed) (past.filterMap fetched) (past.filterMap gaveUp) (d.setWorker k w') :=
    fun hw hpiece hcounted hgoing => hpool.pass hphase hw hpiece hcounted (fun hstop => absurd hstop hgoing)
  have hcases := workerStep_cases ssl d view.file k input
  generalize d.workerStep ssl view.file k input = result at hcases ⊢
  cases hcases with
  | absent hw => exact Booked.away (hactor hw) hpool
  | stopped hw | wait hw | block hw => exact Booked.silent (hactor hw) rfl rfl rfl hpool
  | goOn hw | ask hw | giveUp hw | wrote hw | notWritten hw | write hw =>
    exact Booked.silent (hactor hw) rfl rfl rfl (hpass hw rfl rfl (by simp))
  | quit hw hcancelled =>
    exact Booked.silent (hactor hw) rfl rfl rfl (hpool.pass hphase hw rfl rfl (fun _ => Or.inr (Or.inl hcancelled)))
  | claim hw hnext =>
    have hclaims : Worker.claims d .claiming = some d.next := if_pos (List.getElem?_eq_some_iff.mp hnext).1
    refine Booked.enter (hactor hw) ?_
    simpa [Machine.event, hclaims, Worker.justCounted, Worker.givesUp] using hpool.claim hphase hw hnext
  | miss hw hnext =>
    have hclaims : Worker.claims d .claiming = none := if_neg (Nat.not_lt.mpr (List.getElem?_eq_none_iff.mp hnext))
    exact Booked.silent (hactor hw) hclaims rfl rfl (hpool.miss hphase hw hnext)
  | answer hw => exact Booked.silent (hactor hw) rfl rfl rfl (hpool.answerStep hphase hw _ _ _)
  | count hw => exact Booked.silent (hactor hw) rfl rfl rfl (hpool.count hphase hs horder hw)
  | publish hw =>
    refine Booked.enter (hactor hw) ?_
    simpa [Worker.claims, Worker.justCounted, Worker.givesUp] using hpool.finish hphase hw
  | @drop _ piece hw hcancelled =>
    -- The download is cancelled, so the failure is not recorded.
    have hgives : Worker.givesUp d (.returned piece) = some piece := if_pos hcancelled
    have hdrop : Pool _ _ _ (d.setWorker k .looping) :=
      hpool.drop hphase d.pieceFailed hw rfl rfl (by simp [hcancelled])
    refine Booked.enter (hactor hw) ?_
    simpa [Machine.event, hgives, Worker.claims, Worker.justCounted] using hdrop
  | @fail _ piece hw hcancelled =>
    have hgives : Worker.givesUp d (.returned piece) = none := if_neg (by simp [hcancelled])
    exact Booked.silent (hactor hw) rfl rfl hgives (hpass hw rfl rfl (by simp))
  | record hw =>
    refine Booked.enter (hactor hw) ?_
    have hdrop := hpool.drop hphase true hw rfl rfl (fun _ => rfl)
    simpa [Worker.claims, Worker.justCounted, Worker.givesUp] using hdrop

/-- One step of anybody. -/
theorem Booked.step {i : View × Action} (h : Booked past d) (hs : PhaseSurveyed d d.phase) (hidle : d.Idle) :
    Booked (past ++ [Machine.event (advance ssl) d i]) (advance ssl d i).1 := by
  have hpool : Pool (past.filterMap claimed) (past.filterMap fetched) (past.filterMap gaveUp) d := h
  obtain ⟨view, action⟩ := i
  cases action with
  | cancel =>
    refine Booked.away rfl ⟨hpool.claims, hpool.accounted, hpool.kept, hpool.completed, hpool.bounded,
      hpool.recorded, ?_, ?_, hpool.seeders, hpool.phase.frame rfl rfl rfl rfl rfl⟩
    · exact fun hc => absurd (show true = false from hc) (by simp)
    · exact fun hc => absurd (show true = false from hc) (by simp)
  | main input => exact Booked.away rfl (hpool.mainStep hs)
  | worker k input =>
    by_cases hphase : d.phase = .fetching
    · rw [hphase] at hs
      exact h.workerStep hphase hs.1 hs.2
    · have hstopped := hidle hphase
      have hstay : (advance ssl d (view, .worker k input)).1 = d := by
        simp only [advance, Download.step, workerStep_idle view.file k input hstopped]
      rw [hstay]
      have hactor : actor (Machine.event (advance ssl) d (view, .worker k input)) = d.workers[k]? := rfl
      cases hw : d.workers[k]? with
      | none => exact Booked.away (hactor.trans hw) hpool
      | some w =>
        obtain rfl := hstopped w (List.mem_of_getElem? hw)
        rw [hw] at hactor
        exact Booked.silent hactor rfl rfl rfl hpool

theorem booked (ssl : OpenSsl) (group name destination : Bytes) (metadata : FileMetadata) (seeders : List SeederAccess)
    (hseeders : seeders ≠ []) (inputs : List (View × Action)) :
    Booked (Machine.events (advance ssl) (create group name destination metadata seeders) inputs)
      (Machine.run (advance ssl) (create group name destination metadata seeders) inputs) := by
  refine Machine.history (P := Booked) ?_ (fun past t i hreach h => ?_) inputs
  · refine ⟨rfl, ?_, rfl, by simp [create, Phase.isPrepared], Nat.zero_le _, by simp [create], fun _ _ => rfl,
      by simp [create], hseeders, rfl, rfl, rfl, rfl⟩
    exact List.Perm.refl _
  · obtain ⟨hs, hidle⟩ := reachable_surveyed hreach
    exact h.step hs hidle

/-- What `fetchPieces` returns, when all of its threads have been joined. -/
def fetchPiecesResult (d : Download) : Option Bool :=
  if d.phase = .fetching ∧ d.workers.all (· = .stopped) then some (!d.pieceFailed) else none

/-- Uncancelled, `failed` is false after the join exactly if the fetch of every piece returned true. -/
theorem Pool.joined (h : Pool claims finished dropped d) (hs : d.Surveyed) (horder : d.order = d.rarestFirst)
    (hphase : d.phase = .fetching) (hstopped : ∀ w ∈ d.workers, w = .stopped) (hcancelled : d.cancelled = false) :
    d.pieceFailed = false ↔ ∀ piece ∈ d.order, piece ∈ finished := by
  obtain ⟨hend, hheld⟩ := h.join hphase hstopped hcancelled
  constructor
  · intro hfailed piece hpiece
    exact (h.accounted.all hend (h.excused hcancelled hfailed) hheld).subset hpiece
  · intro hall
    by_contra hfailed
    obtain ⟨piece, hpiece⟩ := List.exists_mem_of_ne_nil _ (h.recorded (by simpa using hfailed))
    have hnodup : d.order.Nodup := by
      rw [horder]
      exact hs.rarest.nodup
    obtain ⟨hmissing, hnever⟩ := h.accounted.missed hnodup hpiece
    exact hnever (hall piece hmissing)

/-- In `complete` every missing piece has been fetched, once. -/
theorem Pool.complete (h : Pool claims finished dropped d) (hs : PhaseSurveyed d d.phase) (hidle : d.Idle)
    (hphase : d.phase.isCompleting = true ∨ d.phase.isMoved = true) :
    claims = List.range d.order.length ∧ d.order.Perm finished ∧
      (∀ piece, piece ∈ d.order ↔ piece < d.metadata.pieceCount ∧ d.verified.getD piece false = false) ∧
      d.completed.length = d.metadata.pieceCount := by
  have hpool := h.phase
  have hgone : d.phase ≠ .fetching ∧ d.phase.isPrepared = true ∧ (d.Surveyed ∧ d.order = d.rarestFirst) ∧
      d.order.Perm finished ∧ d.order.length ≤ d.next := by
    generalize d.phase = phase at hphase hs hpool
    cases phase with
    | checking | hashing _ | moving | sharingAgain | adding | finishing => exact ⟨by simp, rfl, hs, hpool⟩
    | finished failure =>
      cases failure with
      | none => exact ⟨by simp, rfl, hs, hpool⟩
      | some reason => simp [Phase.isCompleting, Phase.isMoved] at hphase
    | _ => simp [Phase.isCompleting, Phase.isMoved] at hphase
  obtain ⟨hleft, hprepared, ⟨hsurveyed, horder⟩, hperm, hend⟩ := hgone
  have hnobody : d.workers.filterMap Worker.justCounted = [] := by
    rw [List.filterMap_eq_nil_iff]
    intro w hw
    rw [hidle hleft w hw]
    rfl
  refine ⟨by rw [h.claims, Nat.min_eq_right hend], hperm, ?_, ?_⟩
  · rw [horder]
    exact hsurveyed.rarest.missing
  · have hcompleted := (h.completed hprepared).length_eq
    rw [hnobody, List.append_nil, List.length_append, ← hperm.length_eq, horder] at hcompleted
    rw [hcompleted]
    exact hsurveyed.partition

/-- Whatever the threads and the user do and the seeders answer, no position is claimed twice, `completed_` is the
number of pieces resumed and fetched, `run` comes to `complete` with every missing piece claimed and fetched only, and
`fetchPieces` tells whether every fetch succeeded. A piece is counted one step before its fetch returns. -/
theorem worker_pool (ssl : OpenSsl) (group name destination : Bytes) (metadata : FileMetadata)
    (seeders : List SeederAccess) (hseeders : seeders ≠ []) (inputs : List (View × Action)) :
    let d := Machine.run (advance ssl) (create group name destination metadata seeders) inputs
    let past := Machine.events (advance ssl) (create group name destination metadata seeders) inputs
    d.metadata = metadata ∧
    (past.filterMap claimed).Nodup ∧
    (d.phase.isPrepared = true → d.completed.length =
      d.resumedPieces + (past.filterMap fetched).length + (d.workers.filterMap Worker.justCounted).length) ∧
    d.completed.length ≤ metadata.pieceCount ∧
    (d.phase.isCompleting = true ∨ d.phase.isMoved = true →
      past.filterMap claimed = List.range d.order.length ∧ d.order.Perm (past.filterMap fetched) ∧
      (∀ piece, piece ∈ d.order ↔ piece < metadata.pieceCount ∧ d.verified.getD piece false = false) ∧
      d.completed.length = metadata.pieceCount) ∧
    (d.cancelled = false → ∀ result, d.fetchPiecesResult = some result →
      (result = true ↔ ∀ piece ∈ d.order, piece ∈ past.filterMap fetched)) := by
  intro d past
  have h : Pool (past.filterMap claimed) (past.filterMap fetched) (past.filterMap gaveUp) d :=
    booked ssl group name destination metadata seeders hseeders inputs
  obtain ⟨hs, hidle⟩ := reachable_surveyed (d := d) ⟨inputs, rfl⟩
  have hsubject : d.subject = (group, name, destination, metadata) :=
    Machine.invariant (P := fun d : Download => d.subject = (group, name, destination, metadata)) rfl
      (fun d i hd => (step_subject i.1 i.2).trans hd) ⟨inputs, rfl⟩
  have hmetadata : d.metadata = metadata := congrArg (fun s => s.2.2.2) hsubject
  refine ⟨hmetadata, ?_, fun hprepared => ?_, hmetadata ▸ h.bounded, fun hphase => ?_,
    fun hcancelled result hresult => ?_⟩
  · rw [h.claims]
    exact List.nodup_range
  · have hlen := (h.completed hprepared).length_eq
    rw [List.length_append, List.length_append, h.kept] at hlen
    omega
  · have hcomplete := h.complete hs hidle hphase
    rwa [hmetadata] at hcomplete
  · unfold fetchPiecesResult at hresult
    split at hresult
    · next hjoin =>
      obtain ⟨hphase, hstopped⟩ := hjoin
      obtain rfl := Option.some.inj hresult
      rw [hphase] at hs
      rw [Bool.not_eq_true']
      exact h.joined hs.1 hs.2 hphase (by simpa using hstopped) hcancelled
    · simp at hresult

end Runs

section Example

/-- Two pieces; the first has the piece hash of two bytes. -/
def twoPieces : FileMetadata :=
  ⟨524289, lit "86f7e437faa5a7fce15d1ddcb9eaeaea377667b8",
    [lit "da23614e02469a0d7c7bd1bdab5c9c474b1904dc", lit "86f7e437faa5a7fce15d1ddcb9eaeaea377667b8"]⟩

/-- Two seeders, the second of which has the first piece only. -/
def newTwoPieces : Download := create [] [] [] twoPieces [nobody, nobody]

/-- Two workers fetch the two pieces by turns. The one that has claimed the first position fails once, and is the last
to finish. -/
def twoWorkers : List (View × Action) := [
  (newFile, .main .ok), (newFile, .main .ok), (newFile, .main .ok), (newFile, .main .ok),
  (newFile, .main (.reply 0 none (.success, [1, 1]))), (newFile, .main (.reply 0 none (.success, [1, 0]))),
  (newFile, .main .ok), (newFile, .main .ok), (newFile, .main .ok),
  (newFile, .worker 0 .ok), (newFile, .worker 1 .ok), (newFile, .worker 0 .ok), (newFile, .worker 1 .ok),
  (newFile, .worker 0 .ok), (newFile, .worker 1 .ok), (newFile, .worker 1 (.reply 0 none (.success, lit "ab"))),
  (newFile, .worker 0 (.reply 0 none (.networkFailure, []))), (newFile, .worker 1 (.io (.upTo 1))),
  (newFile, .worker 0 .ok), (newFile, .worker 1 .ok), (newFile, .worker 0 (.reply 0 none (.success, lit "a"))),
  (newFile, .worker 1 .ok), (newFile, .worker 0 (.io (.upTo 0))), (newFile, .worker 1 .ok),
  (newFile, .worker 0 .ok), (newFile, .worker 1 .ok), (newFile, .worker 0 .ok), (newFile, .worker 1 .ok),
  (newFile, .worker 0 .ok), (newFile, .worker 0 .ok), (newFile, .worker 0 .ok), (newFile, .main .ok)]

def afterTwoWorkers : Download := Machine.run (advance sha1Recording.replay) newTwoPieces twoWorkers

/-- What the two workers have done. -/
def twoWorkersDid : List DownloadEvent := Machine.events (advance sha1Recording.replay) newTwoPieces twoWorkers

/-- The rarer piece comes first, and is fetched last. -/
theorem worker_pool_two : afterTwoWorkers.phase = .checking ∧ afterTwoWorkers.order = [1, 0] ∧
    twoWorkersDid.filterMap fetched = [0, 1] ∧ twoWorkersDid.filterMap claimed = [0, 1] ∧
      afterTwoWorkers.completed.length = 2 := by
  have hrun : afterTwoWorkers.phase = .checking ∧ afterTwoWorkers.order = [1, 0] ∧
      twoWorkersDid.filterMap fetched = [0, 1] := by decide +kernel
  obtain ⟨hphase, horder, hfetched⟩ := hrun
  obtain ⟨-, -, -, -, hcomplete, -⟩ :=
    worker_pool sha1Recording.replay [] [] [] twoPieces [nobody, nobody] (by simp) twoWorkers
  obtain ⟨hclaimed, -, -, hcompleted⟩ := hcomplete (Or.inl (congrArg Phase.isCompleting hphase))
  have hcount : (List.range afterTwoWorkers.order.length) = [0, 1] := by rw [horder]; rfl
  exact ⟨hphase, horder, hfetched, hclaimed.trans hcount, hcompleted⟩

end Example

end Download

end TorrentAtlas
