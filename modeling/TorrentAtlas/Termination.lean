import TorrentAtlas.RarestFirst
import TorrentAtlas.Resume
import TorrentAtlas.Library.Ranking

/-!
# A download ends

`rank` bounds what is left to do: the workers' attempts, the pieces not yet claimed, the
rounds of the reads and writes, the phases to come. Peers, the tracker, the files and the
schedule are arbitrary; a peer's answer has at most `cap` bytes and a file at most `longest`.
-/
namespace TorrentAtlas

open Encoding Crypto

namespace Download

section Rank

variable (cap seeders : Nat)

/-- The attempts at one piece, each with its request and every round of its write. -/
def pieceCost : Nat := PASSES_PER_PIECE * seeders * (cap + 5) + 9

def Worker.rank : Worker → Nat
  | .stopped => 0
  | .looping => 3
  | .claiming => 2
  | .attempting _ attempt => (PASSES_PER_PIECE * seeders - attempt) * (cap + 5) + 9
  | .requesting _ attempt _ => (PASSES_PER_PIECE * seeders - (attempt + 1)) * (cap + 5) + (cap + 4) + 9
  | .writing _ attempt data done =>
    (PASSES_PER_PIECE * seeders - (attempt + 1)) * (cap + 5) + (data.length - done) + 1 + 9
  | .written _ => 8
  | .counted _ => 7
  | .returned _ => 6
  | .recording _ => 5

/-- What the workers and the queue still cost. -/
def poolRank (workers : List Worker) (unclaimed : Nat) : Nat :=
  (workers.map (Worker.rank cap seeders)).sum + unclaimed * pieceCost cap seeders

/-- What a pool costs that is yet to start on `pieces` pieces. -/
def poolCost (pieces : Nat) : Nat := 3 * MAX_THREADS + pieces * pieceCost cap seeders

/-- What `prepare` still reads, at piece `piece` with `read` bytes of it. -/
def readRank (pieces piece read : Nat) : Nat := (pieces - piece) * (PIECE_SIZE + 2) - min read (PIECE_SIZE + 1)

end Rank

variable {ssl : OpenSsl} (cap longest : Nat)

def phaseRank (d : Download) : Nat :=
  match d.phase with
  | .starting => 14 + longest + poolCost cap d.seeders.length d.metadata.pieceCount + d.seeders.length +
      readRank d.metadata.pieceCount 0 0
  | .opening _ => 13 + longest + poolCost cap d.seeders.length d.metadata.pieceCount + d.seeders.length +
      readRank d.metadata.pieceCount 0 0
  | .truncating _ => 12 + longest + poolCost cap d.seeders.length d.metadata.pieceCount + d.seeders.length +
      readRank d.metadata.pieceCount 0 0
  | .reading _ piece data => 11 + longest + poolCost cap d.seeders.length d.verified.length + d.seeders.length +
      readRank d.verified.length piece data.length
  | .asking seeder => 10 + longest + poolCost cap d.seeders.length d.verified.length + (d.seeders.length - seeder)
  | .publishing => 9 + longest + poolCost cap d.seeders.length d.verified.length
  | .sharing => 8 + longest + poolCost cap d.seeders.length d.verified.length
  | .fetching => 7 + longest + poolRank cap d.seeders.length d.workers (d.order.length - d.next)
  | .checking => 6 + longest
  | .hashing data => 5 + (longest - data.length)
  | .moving => 4
  | .sharingAgain => 3
  | .adding => 2
  | .finishing => 1
  | .finished _ => 0

/-- What is left to do, and the one cancellation. -/
def rank (d : Download) : Nat := d.phaseRank cap longest + (!d.cancelled).toNat

/-- Outside `fetchPieces` no worker runs, and it starts at most `MAX_THREADS`. -/
structure Pooled (d : Download) : Prop where
  idle : d.Idle
  threads : d.workers.length ≤ MAX_THREADS

/-- What a worker receives from a peer. -/
def Action.received : Action → Bytes
  | .worker _ (.reply _ _ (.success, data)) => data
  | _ => []

def Phase.isHashing : Phase → Bool
  | .hashing _ => true
  | _ => false

/-- A peer's answer fits into `cap` bytes, the file that `hash` reads into `longest`. -/
def Capped (d : Download) (i : View × Action) : Prop :=
  i.2.received.length ≤ cap ∧ (d.phase.isHashing = true → i.1.input.length ≤ longest)

theorem create_pooled (group name destination : Bytes) (metadata : FileMetadata) (seeders : List SeederAccess) :
    Pooled (create group name destination metadata seeders) :=
  ⟨fun _ => by simp [create], Nat.zero_le _⟩

theorem threadCount_le (d : Download) (order : List Nat) : d.threadCount order ≤ MAX_THREADS :=
  (Nat.min_le_left _ _).trans (Nat.min_le_left _ _)

/-- A worker that moves keeps its place among the workers. -/
theorem length_workers_workerStep (d : Download) (file : Bytes) (k : Nat) (input : Input) :
    (d.workerStep ssl file k input).1.workers.length = d.workers.length := by
  have hcases := workerStep_cases ssl d file k input
  generalize d.workerStep ssl file k input = result at hcases ⊢
  cases hcases with
  | absent | stopped | wait | block => rfl
  | @answer piece attempt seeder now located outcome =>
    obtain ⟨w, failures, hanswer⟩ := @answerStep_eq d ssl k piece attempt seeder now located outcome
    rw [hanswer]
    exact List.length_set
  | _ => exact List.length_set

theorem Pooled.step {d : Download} (h : d.Pooled) (view : View) (action : Action) :
    (d.step ssl view action).1.Pooled := by
  refine ⟨step_idle view action h.idle, ?_⟩
  cases action with
  | cancel => exact h.threads
  | worker k input =>
    simp only [Download.step, length_workers_workerStep]
    exact h.threads
  | main input =>
    have hcases := mainStep_cases ssl d view input
    simp only [Download.step]
    generalize d.mainStep ssl view input = result at hcases ⊢
    cases hcases with
    | prepare =>
      rw [(prepareStep_frame _ _ _ _ _).2.2]
      exact h.threads
    | bitmap =>
      rw [(bitmapStep_frame _ _).2]
      exact h.threads
    | start =>
      rw [List.length_replicate]
      exact threadCount_le d _
    | _ => exact h.threads

theorem length_rarestFirst_le (d : Download) : d.rarestFirst.length ≤ d.verified.length := by
  rw [rarestFirst, List.length_insertionSort]
  exact (List.length_filter_le _ _).trans (List.length_range).le

theorem length_holders_le (d : Download) (piece : Nat) : (d.holders piece).length ≤ d.seeders.length :=
  (List.length_filter_le _ _).trans (List.length_range).le

section Workers

variable {cap longest} {d d' : Download} {k : Nat} {w w' : Worker}

/-- A worker whose move costs less than what it pays, from its own rank or from the queue. -/
theorem rank_setWorker_lt {unclaimed unclaimed' seeders : Nat} {workers : List Worker} (hw : workers[k]? = some w)
    (hless : w'.rank cap seeders + unclaimed' * pieceCost cap seeders <
      w.rank cap seeders + unclaimed * pieceCost cap seeders) :
    poolRank cap seeders (workers.set k w') unclaimed' < poolRank cap seeders workers unclaimed := by
  have hsum := Machine.sum_map_set (Worker.rank cap seeders) hw w'
  unfold poolRank
  omega

/-- A step of a worker during `fetchPieces`, from its own rank. -/
theorem rank_move_lt (hphase : d.phase = .fetching) (hw : d.workers[k]? = some w)
    (hless : w'.rank cap d.seeders.length < w.rank cap d.seeders.length) (hphase' : d'.phase = d.phase)
    (hworkers : d'.workers = d.workers.set k w') (hseeders : d'.seeders.length = d.seeders.length)
    (horder : d'.order = d.order) (hnext : d'.next = d.next) (hcancelled : d'.cancelled = d.cancelled) :
    d'.rank cap longest < d.rank cap longest := by
  have hpool := @rank_setWorker_lt cap k w w' (d.order.length - d.next) (d.order.length - d.next) _ _ hw
    (Nat.add_lt_add_right hless _)
  simp only [rank, phaseRank, hphase', hphase, hworkers, hseeders, horder, hnext, hcancelled]
  omega

/-- One attempt costs its request and every round of its write. -/
theorem attempts_split {seeders attempt : Nat} (h : attempt < PASSES_PER_PIECE * seeders) :
    (PASSES_PER_PIECE * seeders - attempt) * (cap + 5) =
      (PASSES_PER_PIECE * seeders - (attempt + 1)) * (cap + 5) + (cap + 5) := by
  rw [show PASSES_PER_PIECE * seeders - attempt = PASSES_PER_PIECE * seeders - (attempt + 1) + 1 by omega, Nat.succ_mul]

theorem rank_answerStep_lt {piece attempt seeder : Nat} {now : Int} {located : Option (List SeederAccess)}
    {outcome : Outcome} (hphase : d.phase = .fetching) (hw : d.workers[k]? = some (.requesting piece attempt seeder))
    (hcap : ∀ data, outcome = (.success, data) → data.length ≤ cap) :
    (d.answerStep ssl k piece attempt seeder now located outcome).rank cap longest < d.rank cap longest := by
  have hlength := length_seederAt (d := d) seeder now located
  unfold answerStep
  dsimp only
  split
  · next data hfetch =>
    have hdata : data.length ≤ cap := by
      unfold PeerClient.fetchPiece at hfetch
      split at hfetch
      · split at hfetch
        · simp at hfetch
        · obtain rfl := congrArg Prod.snd hfetch
          exact hcap _ rfl
      · exact hcap data hfetch
    refine rank_move_lt hphase hw ?_ rfl rfl hlength rfl rfl rfl
    simp only [Worker.rank]
    omega
  · refine rank_move_lt hphase hw ?_ rfl rfl hlength rfl rfl rfl
    simp only [Worker.rank]
    omega
  · refine rank_move_lt hphase hw ?_ rfl rfl hlength rfl rfl rfl
    simp only [Worker.rank]
    omega

/-- Every step of a worker leaves the download as it is or uses some of its rank up. -/
theorem rank_workerStep {file : Bytes} {input : Input} (h : d.Pooled)
    (hcap : ∀ now located data, input = .reply now located (.success, data) → data.length ≤ cap) :
    (d.workerStep ssl file k input).1 = d ∨ (d.workerStep ssl file k input).1.rank cap longest < d.rank cap longest := by
  have hfetching : ∀ {v : Worker}, d.workers[k]? = some v → v ≠ .stopped → d.phase = .fetching := by
    intro v hv hne
    by_contra hphase
    exact hne (h.idle hphase v (List.mem_of_getElem? hv))
  have hcases := workerStep_cases ssl d file k input
  generalize d.workerStep ssl file k input = result at hcases ⊢
  cases hcases with
  | absent | stopped | wait | block => exact Or.inl rfl
  | goOn hw | quit hw | wrote hw | publish hw | drop hw | fail hw | count hw | record hw =>
    refine Or.inr (rank_move_lt (hfetching hw (by simp)) hw ?_ rfl rfl rfl rfl rfl rfl)
    simp only [Worker.rank]
    omega
  | @claim _ piece hw hnext =>
    right
    have hphase := hfetching hw (by simp)
    have hlt := (List.getElem?_eq_some_iff.mp hnext).1
    have hpool := @rank_setWorker_lt cap k _ (.attempting piece 0) (d.order.length - d.next)
      (d.order.length - (d.next + 1)) d.seeders.length _ hw (by
        rw [show d.order.length - d.next = d.order.length - (d.next + 1) + 1 by omega, Nat.succ_mul]
        simp only [Worker.rank, pieceCost, Nat.sub_zero]
        omega)
    simp only [rank, phaseRank, hphase, setWorker]
    omega
  | miss hw hnext =>
    right
    have hphase := hfetching hw (by simp)
    have hend := List.getElem?_eq_none_iff.mp hnext
    have hpool := @rank_setWorker_lt cap k _ .stopped (d.order.length - d.next) (d.order.length - (d.next + 1))
      d.seeders.length _ hw (by
        rw [show d.order.length - d.next = 0 by omega, show d.order.length - (d.next + 1) = 0 by omega]
        simp only [Worker.rank]
        omega)
    simp only [rank, phaseRank, hphase, setWorker]
    omega
  | @ask _ piece attempt hw hmore =>
    refine Or.inr (rank_move_lt (hfetching hw (by simp)) hw ?_ rfl rfl rfl rfl rfl rfl)
    have hle := length_holders_le d piece
    have hattempt : attempt < PASSES_PER_PIECE * d.seeders.length :=
      Nat.lt_of_lt_of_le hmore (Nat.mul_le_mul_left _ hle)
    simp only [Worker.rank, @attempts_split cap _ _ hattempt]
    omega
  | giveUp hw =>
    refine Or.inr (rank_move_lt (hfetching hw (by simp)) hw ?_ rfl rfl rfl rfl rfl rfl)
    simp only [Worker.rank]
    omega
  | answer hw =>
    exact Or.inr (rank_answerStep_lt (hfetching hw (by simp)) hw fun data hdata => hcap _ _ data (by rw [hdata]))
  | notWritten hw =>
    refine Or.inr (rank_move_lt (hfetching hw (by simp)) hw ?_ rfl rfl rfl rfl rfl rfl)
    simp only [Worker.rank]
    omega
  | @write piece attempt done done' data contents outcome hw hmore hstep =>
    cases outcome with
    | failed => simp [PieceFile.writeStep] at hstep
    | interrupted =>
      left
      obtain ⟨rfl, rfl⟩ : file = contents ∧ done = done' := by simpa [PieceFile.writeStep] using hstep
      obtain ⟨hk, hget⟩ := List.getElem?_eq_some_iff.mp hw
      have hset : d.workers.set k (.writing piece attempt data done) = d.workers := by
        rw [← hget]
        exact List.set_getElem_self hk
      rw [setWorker, hset]
    | upTo n =>
      simp only [PieceFile.writeStep, Option.some.injEq, Prod.mk.injEq] at hstep
      obtain ⟨-, rfl⟩ := hstep
      refine Or.inr (rank_move_lt (hfetching hw (by simp)) hw ?_ rfl rfl rfl rfl rfl rfl)
      simp only [Worker.rank, List.length_take, List.length_drop]
      omega

end Workers

section Main

variable {cap longest} {d : Download}

/-- The phases before the files are read have the same budget. -/
theorem readRank_next {pieces piece read : Nat} (h : piece < pieces) :
    readRank pieces (piece + 1) 0 < readRank pieces piece read := by
  have hsplit : (pieces - piece) * (PIECE_SIZE + 2) = (pieces - (piece + 1)) * (PIECE_SIZE + 2) + (PIECE_SIZE + 2) := by
    rw [show pieces - piece = pieces - (piece + 1) + 1 by omega, Nat.succ_mul]
  unfold readRank
  omega

theorem readRank_more {pieces piece read read' : Nat} (h : piece < pieces) (hmore : read < read')
    (hsize : read' ≤ PIECE_SIZE) : readRank pieces piece read' < readRank pieces piece read := by
  have hle : PIECE_SIZE + 2 ≤ (pieces - piece) * (PIECE_SIZE + 2) := Nat.le_mul_of_pos_left _ (by omega)
  unfold readRank
  omega

/-- A round of `read` fails, was interrupted, or gains at least a byte. -/
theorem readStep_grows {contents : Bytes} {index length : Nat} {data data' : Bytes} {io : Transfer}
    (hlen : data.length < length) (h : PieceFile.readStep contents index length data io = some data') :
    data' = data ∨ data.length < data'.length ∧ data'.length ≤ length := by
  cases io with
  | interrupted =>
    left
    simpa [PieceFile.readStep, eq_comm] using h
  | failed => simp [PieceFile.readStep] at h
  | upTo n =>
    right
    simp only [PieceFile.readStep] at h
    split at h
    · simp at h
    · next hne =>
      obtain rfl := Option.some.inj h
      have hcount := PieceFile.length_pread contents (PieceFile.pieceOffset index + data.length)
        (min (n + 1) (length - data.length))
      have hpos := List.length_pos_iff.mpr (by simpa using hne)
      rw [List.length_append]
      omega

theorem rank_prepareStep {file : Bytes} {resuming : Bool} {piece : Nat} {data : Bytes} {input : Input}
    (hphase : d.phase = .reading resuming piece data) :
    d.prepareStep ssl file resuming piece data input = d ∨
      (d.prepareStep ssl file resuming piece data input).rank cap longest < d.rank cap longest := by
  unfold prepareStep
  split
  · right
    simp only [rank, phaseRank, hphase, Nat.sub_zero]
    omega
  · next hmore =>
    simp only [Bool.or_eq_true, decide_eq_true_eq, not_or, not_le] at hmore
    have hnext := @readRank_next d.verified.length piece data.length hmore.2
    split
    · right
      split <;> simp only [rank, phaseRank, hphase, List.length_set, List.length_nil] <;> omega
    · next hshort =>
      split
      · split
        · right
          simp only [rank, phaseRank, hphase, List.length_nil]
          omega
        · next data' hread =>
          rcases readStep_grows (Nat.lt_of_not_le hshort) hread with rfl | ⟨hgrows, hle⟩
          · left
            rw [← hphase]
          · right
            have hread := readRank_more hmore.2 hgrows (hle.trans (d.metadata.pieceLength_le piece))
            simp only [rank, phaseRank, hphase]
            omega
      · exact Or.inl rfl

theorem rank_bitmapStep {seeder : Nat} {input : Input} (hphase : d.phase = .asking seeder) :
    d.bitmapStep seeder input = d ∨ (d.bitmapStep seeder input).rank cap longest < d.rank cap longest := by
  unfold bitmapStep
  split
  · right
    simp only [rank, phaseRank, hphase]
    omega
  · next hmore =>
    split
    · right
      dsimp only
      split <;> simp only [rank, phaseRank, hphase, length_seederAt] <;> omega
    · exact Or.inl rfl

/-- Every step of `run` leaves the download as it is or uses some of its rank up. -/
theorem rank_mainStep {view : View} {input : Input}
    (hlongest : d.phase.isHashing = true → view.input.length ≤ longest) :
    (d.mainStep ssl view input).1 = d ∨ (d.mainStep ssl view input).1.rank cap longest < d.rank cap longest := by
  have hcases := mainStep_cases ssl d view input
  generalize d.mainStep ssl view input = result at hcases ⊢
  cases hcases with
  | stay => exact Or.inl rfl
  | prepare hphase => exact rank_prepareStep hphase
  | bitmap hphase => exact rank_bitmapStep hphase
  | truncated hphase =>
    right
    simp only [rank, phaseRank, hphase, List.length_replicate, List.length_nil]
    omega
  | start hphase =>
    right
    have horder := length_rarestFirst_le d
    have hthreads := threadCount_le d d.rarestFirst
    have hqueue := Nat.mul_le_mul_right (pieceCost cap d.seeders.length) horder
    simp only [rank, phaseRank, hphase, poolRank, poolCost, List.map_replicate, List.sum_replicate_nat,
      Worker.rank, Nat.sub_zero]
    omega
  | hashOn hphase hhash =>
    rename_i data data' outcome
    cases outcome with
    | failed => simp [PieceFile.hashStep] at hhash
    | interrupted =>
      left
      obtain rfl : data = data' := by simpa [PieceFile.hashStep] using hhash
      rw [← hphase]
    | upTo n =>
      right
      simp only [PieceFile.hashStep] at hhash
      split at hhash
      · simp at hhash
      · split at hhash
        · simp at hhash
        · next hfull =>
          have hblock := PieceFile.length_pread view.input data.length PIECE_SIZE
          have hlong := hlongest (by rw [hphase]; rfl)
          have hpos : 0 < PIECE_SIZE := by decide
          obtain rfl := PieceFile.HashStep.more.inj hhash
          simp only [rank, phaseRank, hphase, List.length_append]
          omega
  | look hphase | opened hphase | publish hphase | giveUp hphase | join hphase | notOpened hphase | notTruncated hphase
  | notChecked hphase | notHashed hphase | mismatch hphase | accept hphase | notMoved hphase | move hphase
  | shareAgain hphase | add hphase | finish hphase =>
    right
    simp only [rank, phaseRank, hphase, finish]
    omega
  | check hphase =>
    right
    simp only [rank, phaseRank, hphase, List.length_nil]
    omega

end Main

/-- Whichever thread steps: the pool stays as it is meant, and the rank pays for every change. -/
theorem runsDown (ssl : OpenSsl) : Machine.RunsDown (advance ssl) (Capped cap longest) Pooled id (rank cap longest) where
  keeps d i h _ := h.step i.1 i.2
  lowers d i h hcapped := by
    suffices hlowers : (advance ssl d i).1 = d ∨ (advance ssl d i).1.rank cap longest < d.rank cap longest by
      rcases hlowers with hsame | hlower
      · exact Or.inl ⟨hsame, Nat.le_of_eq (congrArg (rank cap longest) hsame)⟩
      · exact Or.inr hlower
    obtain ⟨view, action⟩ := i
    cases action with
    | cancel =>
      by_cases hcancelled : d.cancelled = true
      · left
        change { d with cancelled := true } = d
        rw [← hcancelled]
      · right
        change rank cap longest { d with cancelled := true } < d.rank cap longest
        simp only [rank, phaseRank, hcancelled, Bool.not_true, Bool.toNat_false, Bool.not_false, Bool.toNat_true]
        omega
    | worker k input =>
      refine rank_workerStep h fun now located data hinput => ?_
      have hreceived := hcapped.1
      rwa [hinput] at hreceived
    | main input => exact rank_mainStep hcapped.2

section Turns

/-- The thread of `run` and those of `fetchPieces`. -/
inductive Thread
  | run
  | worker (k : Nat)
  deriving DecidableEq, Repr

/-- What a thread waits for. -/
inductive Call
  | none
  | transfer
  | peer
  deriving DecidableEq, Repr

/-- The call returns with this; an interrupted one is made again. -/
def Call.answeredBy : Call → Input → Bool
  | .none, _ => true
  | .transfer, .io outcome => outcome ≠ .interrupted
  | .peer, .reply _ _ _ => true
  | _, _ => false

def mainCall (d : Download) : Call :=
  match d.phase with
  | .reading resuming piece data =>
    if !resuming || d.verified.length ≤ piece || d.metadata.pieceLength piece ≤ data.length then .none else .transfer
  | .asking seeder => if d.seeders.length ≤ seeder then .none else .peer
  | .hashing _ => .transfer
  | _ => .none

def workerCall (d : Download) (k : Nat) : Call :=
  match d.workers[k]? with
  | some (.requesting _ _ _) => .peer
  | some (.writing _ _ data done) => if data.length ≤ done then .none else .transfer
  | _ => .none

/-- The action is a step of the thread, and its call has returned. -/
def takesTurn (d : Download) : Thread → Action → Bool
  | .run, .main input => d.mainCall.answeredBy input
  | .worker k, .worker k' input => k = k' && (d.workerCall k).answeredBy input
  | _, _ => false

def threads : List Thread := .run :: (List.range MAX_THREADS).map .worker

/-- Every thread has had a turn. -/
def Fair (round : List (Event Download (View × Action) Effect)) : Prop :=
  ∀ thread ∈ threads, ∃ e ∈ round, e.before.takesTurn thread e.input.2 = true

instance (round : List (Event Download (View × Action) Effect)) : Decidable (Fair round) :=
  inferInstanceAs (Decidable (∀ thread ∈ threads, ∃ e ∈ round, e.before.takesTurn thread e.input.2 = true))

variable {d : Download} {k : Nat}

/-- A worker that is not stopped moves on when its call returns. -/
theorem workerStep_ne {file : Bytes} {input : Input} {w : Worker} (hw : d.workers[k]? = some w) (hne : w ≠ .stopped)
    (hcall : (d.workerCall k).answeredBy input = true) : (d.workerStep ssl file k input).1.workers[k]? ≠ some w := by
  have hset : ∀ v, v ≠ w → (d.workers.set k v)[k]? ≠ some w := by
    intro v hv
    rw [List.getElem?_set_self (List.getElem?_eq_some_iff.mp hw).1]
    simpa using hv
  unfold workerCall at hcall
  rw [hw] at hcall
  unfold workerStep
  rw [hw]
  cases w with
  | stopped => exact absurd rfl hne
  | looping =>
    refine hset _ ?_
    split <;> simp
  | claiming =>
    dsimp only
    split <;> exact hset _ (by simp)
  | attempting piece attempt =>
    dsimp only
    split <;> exact hset _ (by simp)
  | requesting piece attempt seeder =>
    cases input with
    | reply now located outcome =>
      simp only [answerStep]
      split <;> exact hset _ (by simp)
    | _ => simp [Call.answeredBy] at hcall
  | writing piece attempt data done =>
    dsimp only at hcall ⊢
    split
    · exact hset _ (by simp)
    · next hmore =>
      rw [if_neg hmore] at hcall
      cases input with
      | io outcome =>
        dsimp only
        cases outcome with
        | interrupted => simp [Call.answeredBy] at hcall
        | failed => exact hset _ (by simp)
        | upTo n =>
          refine hset _ ?_
          simp only [ne_eq, Worker.writing.injEq, true_and, List.length_take, List.length_drop]
          omega
      | _ => simp [Call.answeredBy] at hcall
  | written piece => exact hset _ (by simp)
  | counted piece => exact hset _ (by simp)
  | returned piece =>
    refine hset _ ?_
    split <;> simp
  | recording piece => exact hset _ (by simp)

/-- `run` moves on when its call returns, unless it waits for a worker. -/
theorem mainStep_ne {view : View} {input : Input} (hfinished : d.isFinished = false)
    (hjoin : d.phase = .fetching → ∀ w ∈ d.workers, w = .stopped) (hcall : d.mainCall.answeredBy input = true) :
    (d.mainStep ssl view input).1.phase ≠ d.phase := by
  unfold mainCall at hcall
  unfold mainStep
  cases hphase : d.phase with
  | finished failure => simp [isFinished, hphase] at hfinished
  | opening resuming | truncating resuming | checking | moving =>
    dsimp only
    split <;> simp [finish]
  | starting | publishing | sharing | sharingAgain | adding | finishing => simp [finish]
  | reading resuming piece data =>
    simp only [hphase] at hcall
    simp only [prepareStep]
    split
    · simp
    · next hmore =>
      split
      · split <;> simp
      · next hshort =>
        have hwaits : ¬(!resuming || decide (d.verified.length ≤ piece) ||
            decide (d.metadata.pieceLength piece ≤ data.length)) = true := by
          simp only [Bool.or_eq_true, decide_eq_true_eq, not_or] at hmore ⊢
          exact ⟨hmore, hshort⟩
        rw [if_neg hwaits] at hcall
        cases input with
        | io outcome =>
          dsimp only
          split
          · simp
          · next data' hread =>
            have hne : data' ≠ data := by
              rintro rfl
              cases outcome with
              | interrupted => simp [Call.answeredBy] at hcall
              | failed => simp [PieceFile.readStep] at hread
              | upTo n =>
                simp only [PieceFile.readStep] at hread
                split at hread
                · simp at hread
                · next hcount =>
                  have hnil := List.append_right_eq_self.mp (Option.some.inj hread)
                  simp [hnil] at hcount
            simpa using hne
        | _ => simp [Call.answeredBy] at hcall
  | asking seeder =>
    simp only [hphase] at hcall
    simp only [bitmapStep]
    split
    · simp
    · next hmore =>
      rw [if_neg hmore] at hcall
      cases input with
      | reply now located outcome =>
        dsimp only
        split <;> simp
      | _ => simp [Call.answeredBy] at hcall
  | fetching =>
    dsimp only
    have hstopped : ¬(d.workers.any (· ≠ .stopped)) = true := by simpa using hjoin hphase
    rw [if_neg hstopped]
    split
    · simp [finish]
    · split <;> simp [finish]
  | hashing data =>
    simp only [hphase] at hcall
    cases input with
    | io outcome =>
      dsimp only
      split
      · simp [finish]
      · next data' hhash =>
        cases outcome with
        | interrupted => simp [Call.answeredBy] at hcall
        | failed => simp [PieceFile.hashStep] at hhash
        | upTo n =>
          simp only [PieceFile.hashStep] at hhash
          split at hhash
          · simp at hhash
          · split at hhash
            · simp at hhash
            · next hfull =>
              have hpos : 0 < PIECE_SIZE := by decide
              obtain rfl := PieceFile.HashStep.more.inj hhash
              have hne : pread view.input data.length PIECE_SIZE ≠ [] := by
                rw [← List.length_pos_iff]
                omega
              simpa using hne
      · split <;> simp [finish]
    | _ => simp [Call.answeredBy] at hcall

/-- A download that a turn of every thread leaves as it is has finished. -/
theorem finished_of_turns (ssl : OpenSsl) (h : d.Pooled)
    (hturn : ∀ thread ∈ threads, ∃ view action, d.takesTurn thread action = true ∧ (d.step ssl view action).1 = d) :
    d.isFinished = true := by
  have hstopped : ∀ w ∈ d.workers, w = .stopped := by
    intro w hw
    by_contra hne
    obtain ⟨k, hk⟩ := List.mem_iff_getElem?.mp hw
    have hlt : k < MAX_THREADS := Nat.lt_of_lt_of_le (List.getElem?_eq_some_iff.mp hk).1 h.threads
    obtain ⟨view, action, htakes, hstay⟩ := hturn (.worker k) (by simp [threads, hlt])
    cases action with
    | worker k' input =>
      simp only [takesTurn, Bool.and_eq_true, decide_eq_true_eq] at htakes
      obtain ⟨rfl, hcall⟩ := htakes
      have hmoves := @workerStep_ne ssl d k view.file input w hk hne hcall
      rw [show (d.workerStep ssl view.file k input).1 = d from hstay] at hmoves
      exact hmoves hk
    | _ => simp [takesTurn] at htakes
  by_contra hfinished
  obtain ⟨view, action, htakes, hstay⟩ := hturn .run (by simp [threads])
  cases action with
  | main input =>
    have hmoves := @mainStep_ne ssl d view input (by simpa using hfinished) (fun _ => hstopped) htakes
    rw [show (d.mainStep ssl view input).1 = d from hstay] at hmoves
    exact hmoves rfl
  | _ => simp [takesTurn] at htakes

/-- A round in which every thread has had a turn and nothing has changed finds the download finished. -/
theorem finished_of_unchanged {inputs : List (View × Action)} (h : d.Pooled)
    (hfair : Fair (Machine.events (advance ssl) d inputs))
    (hsame : ∀ e ∈ Machine.events (advance ssl) d inputs, e.after = e.before) : d.isFinished = true := by
  refine finished_of_turns ssl h fun thread hthread => ?_
  obtain ⟨e, he, hturn⟩ := hfair thread hthread
  obtain ⟨hevent, hbefore⟩ := Machine.shown_eq (id : Download → Download) hsame e he
  have hstay := hsame e he
  rw [id, id] at hbefore
  rw [hbefore] at hturn hstay
  rw [hevent, hbefore] at hstay
  exact ⟨e.input.1, e.input.2, hturn, hstay⟩

theorem step_isFinished {view : View} {action : Action} (h : d.isFinished = true) :
    (d.step ssl view action).1.isFinished = true := by
  cases action with
  | cancel => exact h
  | worker k input =>
    unfold isFinished at h ⊢
    simp only [step, (@workerStep_frame d ssl view.file k input).2.1]
    exact h
  | main input =>
    unfold isFinished at h
    split at h
    · next failure hphase => simp [step, mainStep, hphase, isFinished]
    · simp at h

end Turns

/-- What a new download has before it. -/
theorem rank_create (group name destination : Bytes) (metadata : FileMetadata) (seeders : List SeederAccess) :
    (create group name destination metadata seeders).rank cap longest = 15 + longest + seeders.length +
      (3 * MAX_THREADS + metadata.pieceCount * (PASSES_PER_PIECE * seeders.length * (cap + 5) + 9)) +
      metadata.pieceCount * (PIECE_SIZE + 2) := by
  simp only [rank, phaseRank, create, poolCost, pieceCost, readRank, Nat.sub_zero, Nat.zero_min, Bool.not_false,
    Bool.toNat_true]
  omega

/-- Whatever the peers, the tracker and the files do, and however the threads take turns, a download changes at most as
often as its rank says, which grows with the pieces times the seeders, and after more rounds in which every thread has
had a turn `run` has returned. -/
theorem run_returns (ssl : OpenSsl) (cap longest : Nat) (group name destination : Bytes) (metadata : FileMetadata)
    (seeders : List SeederAccess) :
    let d := create group name destination metadata seeders
    d.rank cap longest = 15 + longest + seeders.length +
      (3 * MAX_THREADS + metadata.pieceCount * (PASSES_PER_PIECE * seeders.length * (cap + 5) + 9)) +
      metadata.pieceCount * (PIECE_SIZE + 2) ∧
    (∀ inputs, Machine.Along (advance ssl) (Capped cap longest) d inputs →
      Machine.changes (advance ssl) id d inputs ≤ d.rank cap longest) ∧
    ∀ rounds, Machine.Along (advance ssl) (Capped cap longest) d rounds.flatten →
      Machine.Rounds (advance ssl) Fair d rounds → d.rank cap longest < rounds.length →
      (Machine.run (advance ssl) d rounds.flatten).isFinished = true := by
  intro d
  have hpooled := create_pooled group name destination metadata seeders
  refine ⟨rank_create cap longest group name destination metadata seeders, fun inputs halong => ?_,
    fun rounds halong hfair hmany => ?_⟩
  · have hpaid := (runsDown cap longest ssl).changes_le hpooled halong
    exact (Nat.le_add_right _ _).trans hpaid
  · exact (runsDown cap longest ssl).ends (fun d i _ _ hd => step_isFinished hd)
      (fun d inputs h _ hround hsame => finished_of_unchanged h hround hsame) hpooled halong hfair hmany

section Example

def newHello : Download :=
  create (lit "g") (lit "f") (lit "out") (PieceFile.hash Attempt.helloRecording.replay (lit "hello"))
    [Attempt.seederOfHello]

/-- One round fetches the one piece of the file, with a turn for the threads that are not needed. -/
def helloTurns : List Action :=
  [.main .fail] ++ List.replicate 3 (.main .ok) ++ [.main (.reply 1000 none (.success, [1]))] ++
    List.replicate 3 (.main .ok) ++ List.replicate 3 (.worker 0 .ok) ++
    [.worker 0 (.reply 1001 none (.success, lit "hello")), .worker 0 (.io (.upTo 9))] ++
    List.replicate 5 (.worker 0 .ok) ++ List.replicate 2 (.main .ok) ++ [.main (.io (.upTo 9))] ++
    List.replicate 4 (.main .ok) ++ (List.range MAX_THREADS).map (fun k => .worker k .ok)

def helloRound : List (View × Action) :=
  helloTurns.map (fun action => (⟨some (lit "hello"), lit "hello", lit "hello"⟩, action))

theorem run_returns_hello : (Machine.run (advance Attempt.helloRecording.replay) newHello
    (List.replicate (newHello.rank 5 5 + 1) helloRound).flatten).isFinished = true := by
  have hcapped : ∀ i ∈ helloRound, i.2.received.length ≤ 5 ∧ i.1.input.length ≤ 5 := by decide +kernel
  have hfirst : Fair (Machine.events (advance Attempt.helloRecording.replay) newHello helloRound) := by decide +kernel
  have hlater : Fair (Machine.events (advance Attempt.helloRecording.replay)
      (Machine.run (advance Attempt.helloRecording.replay) newHello helloRound) helloRound) := by decide +kernel
  have hsame : Machine.run (advance Attempt.helloRecording.replay)
      (Machine.run (advance Attempt.helloRecording.replay) newHello helloRound) helloRound =
      Machine.run (advance Attempt.helloRecording.replay) newHello helloRound := by decide +kernel
  refine (run_returns Attempt.helloRecording.replay 5 5 _ _ _ _ _).2.2 _ (Machine.along_of_forall fun i hi d => ?_)
    ⟨hfirst, Machine.Rounds.replicate hlater hsame _⟩ ?_
  · obtain ⟨round, hround, hi⟩ := List.mem_flatten.mp hi
    rw [List.eq_of_mem_replicate hround] at hi
    exact ⟨(hcapped i hi).1, fun _ => (hcapped i hi).2⟩
  · rw [List.length_replicate]
    exact Nat.lt_succ_self _

end Example

end Download

end TorrentAtlas
