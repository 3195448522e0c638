import TorrentAtlas.Library.Projection
import TorrentAtlas.Retry
import TorrentAtlas.Termination

/-!
# A download that is served arrives

Each piece has one keeper among the seeders, which shows it in its bitmap and sends it when
it is asked. The other seeders, the schedule and the leftovers on the disk are arbitrary. A
call of `fetchPiece` reaches the keeper within one round of the holders, so no piece fails.
-/
namespace TorrentAtlas

open Encoding Crypto PieceFile FileMetadata RoundRobin

namespace Download

/-- Nobody cancels, no call on the files fails, and the keeper of a piece shows and sends it. -/
def delivers (file : Bytes) (keeper : Nat → Nat) (d : Download) : Action → Bool
  | .cancel => false
  | .main input =>
    input ≠ .fail && input ≠ .io .failed &&
      match d.phase, input with
      | .asking seeder, .reply _ _ outcome =>
        let (result, bitmap) := PeerClient.fetchBitmap d.metadata.pieceCount outcome
        decide (∀ i < d.metadata.pieceCount, keeper i = seeder → result = .success ∧ bitmap.getD i false = true)
      | _, _ => true
  | .worker k input =>
    input ≠ .io .failed &&
      match d.workers[k]?, input with
      | some (.requesting i _ seeder), .reply _ _ outcome =>
        seeder ≠ keeper i || outcome = (.success, d.metadata.piece file i)
      | _, _ => true

/-- An attempt at a piece has not been the keeper's turn before, and no piece has been given up. -/
def WorkerOnCourse (keeper : Nat → Nat) (d : Download) : Worker → Prop
  | .attempting i attempt => ∀ a < attempt, turn (d.holders i) (i + a) ≠ some (keeper i)
  | .requesting i attempt seeder => (∀ a < attempt, turn (d.holders i) (i + a) ≠ some (keeper i)) ∧
      turn (d.holders i) (i + attempt) = some seeder
  | .returned _ | .recording _ => False
  | _ => True

/-- The bitmaps of the keepers that have been asked. -/
def PhaseOnCourse (keeper : Nat → Nat) (d : Download) : Phase → Prop
  | .asking seeder => ∀ i < d.metadata.pieceCount, keeper i < seeder →
      (d.seederBitmaps.getD (keeper i) []).getD i false = true
  | .publishing | .sharing | .fetching => ∀ i < d.metadata.pieceCount, keeper i ∈ d.holders i
  | .finished (some _) => False
  | _ => True

structure OnCourse (keeper : Nat → Nat) (d : Download) : Prop where
  cancelled : d.cancelled = false
  pieceFailed : d.pieceFailed = false
  keepers : ∀ i < d.metadata.pieceCount, keeper i < d.seeders.length
  phase : PhaseOnCourse keeper d d.phase
  workers : ∀ w ∈ d.workers, WorkerOnCourse keeper d w

variable {d d' : Download} {ssl : OpenSsl} {file : Bytes} {keeper : Nat → Nat} {k : Nat}

theorem WorkerOnCourse.frame {w : Worker} (h : WorkerOnCourse keeper d w)
    (hholders : ∀ i, d'.holders i = d.holders i) : WorkerOnCourse keeper d' w := by
  cases w with
  | attempting i attempt =>
    intro a ha
    rw [hholders]
    exact h a ha
  | requesting i attempt seeder =>
    refine ⟨fun a ha => ?_, ?_⟩
    · rw [hholders]
      exact h.1 a ha
    · rw [hholders]
      exact h.2
  | returned i | recording i => exact h
  | _ => trivial

/-- A worker moves during `fetchPieces`. -/
theorem OnCourse.move {w : Worker} (h : OnCourse keeper d) (hphase : d.phase = .fetching)
    (hworkers : d'.workers = d.workers.set k w) (hw : WorkerOnCourse keeper d w) (hphase' : d'.phase = d.phase)
    (hholders : ∀ i, d'.holders i = d.holders i) (hcancelled : d'.cancelled = d.cancelled)
    (hfailed : d'.pieceFailed = d.pieceFailed) (hmetadata : d'.metadata = d.metadata)
    (hseeders : d'.seeders.length = d.seeders.length) : OnCourse keeper d' where
  cancelled := hcancelled.trans h.cancelled
  pieceFailed := hfailed.trans h.pieceFailed
  keepers i hi := by
    rw [hseeders]
    exact h.keepers i (hmetadata ▸ hi)
  phase := by
    have hkeepers := h.phase
    rw [hphase] at hkeepers
    rw [hphase', hphase]
    intro i hi
    rw [hholders]
    exact hkeepers i (hmetadata ▸ hi)
  workers v hv := by
    rw [hworkers] at hv
    rcases List.mem_or_eq_of_mem_set hv with hv | rfl
    · exact (h.workers v hv).frame hholders
    · exact hw.frame hholders

/-- The keeper's turn comes within one round. -/
theorem attempt_lt {l : List Nat} {start attempt : Nat} {a : Nat} (ha : a ∈ l)
    (h : ∀ b < attempt, turn l (start + b) ≠ some a) : attempt < l.length := by
  by_contra hle
  have hturn : a ∈ turns l start l.length := (turns_perm l start).mem_iff.mpr ha
  obtain ⟨b, hb, hget⟩ := List.mem_filterMap.mp hturn
  rw [List.mem_range] at hb
  exact h b (by omega) hget

/-- The piece itself passes the check of `PeerClient::fetchPiece`. -/
theorem fetchPiece_piece {i : Nat} (hd : Describes ssl d.metadata file) (hi : i < d.metadata.pieceCount) :
    PeerClient.fetchPiece ssl (d.pieceHash i) (.success, d.metadata.piece file i) =
      (.success, d.metadata.piece file i) := by
  have hhash := (hd.hash i hi (d.metadata.piece file i)).mpr rfl
  simp only [PeerClient.fetchPiece, pieceHash, hhash, ne_eq, not_true_eq_false, if_false]

/-- An answered attempt either delivers the piece or was not the keeper's. -/
theorem OnCourse.answerStep {i attempt seeder : Nat} {now : Int} {located : Option (List SeederAccess)}
    {outcome : Outcome} (h : OnCourse keeper d) (hphase : d.phase = .fetching) (hd : Describes ssl d.metadata file)
    (hi : i < d.metadata.pieceCount) (hw : d.workers[k]? = some (.requesting i attempt seeder))
    (hserved : seeder ≠ keeper i ∨ outcome = (.success, d.metadata.piece file i)) :
    OnCourse keeper (d.answerStep ssl k i attempt seeder now located outcome) := by
  obtain ⟨hfree, hturn⟩ : WorkerOnCourse keeper d (.requesting i attempt seeder) :=
    h.workers _ (List.mem_of_getElem? hw)
  have hworkers := @answerStep_workers d ssl k i attempt seeder now located outcome
  obtain ⟨w, failures, hanswer⟩ := @answerStep_eq d ssl k i attempt seeder now located outcome
  rw [hanswer] at hworkers ⊢
  refine h.move hphase hworkers ?_ rfl (holders_of_survey rfl (length_seederAt _ _ _)) rfl rfl rfl (length_seederAt _ _ _)
  split
  · trivial
  · next hrefused =>
    intro a ha
    rcases Nat.lt_succ_iff_lt_or_eq.mp ha with hlt | rfl
    · exact hfree a hlt
    · rw [hturn]
      rcases hserved with hne | rfl
      · simpa using hne
      · rw [fetchPiece_piece hd hi] at hrefused
        exact absurd rfl hrefused

theorem OnCourse.workerStep {contents : Bytes} {input : Input} (h : OnCourse keeper d)
    (hprogress : Progress ssl file d contents) (hdelivers : d.delivers file keeper (.worker k input) = true) :
    OnCourse keeper (d.workerStep ssl contents k input).1 := by
  simp only [delivers, Bool.and_eq_true, decide_eq_true_eq] at hdelivers
  obtain ⟨hio, hserved⟩ := hdelivers
  have hcases := workerStep_cases ssl d contents k input
  generalize d.workerStep ssl contents k input = result at hcases ⊢
  cases hcases with
  | absent | stopped | wait | block => exact h
  | goOn hw | quit hw | wrote hw | write hw | count hw | publish hw | claim hw | miss hw =>
    exact h.move (hprogress.fetching hw (by simp)) rfl (by simp [WorkerOnCourse]) rfl (fun _ => rfl) rfl rfl rfl rfl
  | @ask _ i attempt hw hmore =>
    have hfree : WorkerOnCourse keeper d (.attempting i attempt) := h.workers _ (List.mem_of_getElem? hw)
    have hne : d.holders i ≠ [] := by
      intro hnone
      simp [hnone] at hmore
    exact h.move (hprogress.fetching hw (by simp)) rfl ⟨hfree, turn_asks hne⟩ rfl (fun _ => rfl) rfl rfl rfl rfl
  | @giveUp _ i attempt hw hlast =>
    -- The keeper's turn is still to come, and nobody cancels.
    have hphase := hprogress.fetching hw (by simp)
    have hkeepers := h.phase
    rw [hphase] at hkeepers
    have hi := (hprogress.workers _ (List.mem_of_getElem? hw)).1 i rfl
    have hlt := attempt_lt (hkeepers i hi) (h.workers _ (List.mem_of_getElem? hw))
    have hcancelled := hlast (by simp only [PASSES_PER_PIECE]; omega)
    rw [h.cancelled] at hcancelled
    simp at hcancelled
  | @answer i attempt seeder now located outcome hw =>
    have hi := (hprogress.workers _ (List.mem_of_getElem? hw)).1 i rfl
    refine h.answerStep (hprogress.fetching hw (by simp)) hprogress.describes hi hw ?_
    simpa [hw] using hserved
  | @notWritten i attempt done data outcome hw hmore hstep =>
    cases outcome with
    | failed => exact absurd rfl hio
    | interrupted => simp [writeStep] at hstep
    | upTo n => simp [writeStep] at hstep
  | drop hw | fail hw | record hw => exact (h.workers _ (List.mem_of_getElem? hw)).elim

end Download

namespace Attempt

open Download

variable {ssl : OpenSsl} {file : Bytes} {a : Attempt} {keeper : Nat → Nat} {input : Input}

/-- Nothing that `run` itself does can fail but a call on the files, a piece or the user. -/
theorem Sound.proceeds (hsize : file.length < 2 ^ 63) (h : Sound ssl file a) (hfail : input ≠ .fail)
    (hio : input ≠ .io .failed) (hcancelled : a.download.cancelled = false) (hfailed : a.download.pieceFailed = false)
    (hphase : ∀ reason, a.download.phase ≠ .finished (some reason)) (reason : Bytes) :
    (a.download.mainStep ssl a.view input).1.phase ≠ .finished (some reason) := by
  have hplaced := h.placed
  have hprogress := h.progress.phase
  have hfits : a.download.metadata.size.toNat < 2 ^ 63 := by
    rw [← h.progress.describes.size]
    exact hsize
  unfold mainStep
  cases hp : a.download.phase with
  | starting | publishing | sharing | sharingAgain | adding | finishing => simp [finish]
  | opening resuming => simp [hfail]
  | truncating resuming =>
    have hdecide : ¬(decide (input = .fail) || decide (2 ^ 63 ≤ a.download.metadata.size.toNat)) = true := by
      simp only [Bool.or_eq_true, decide_eq_true_eq, not_or]
      exact ⟨hfail, by omega⟩
    simp only [if_neg hdecide]
    simp
  | reading resuming piece data =>
    rcases @prepareStep_phase a.download ssl a.view.file resuming piece data input hp with ⟨piece', data', hnext⟩ | hnext
    · simp [hnext]
    · simp [hnext]
  | asking seeder =>
    simp only [bitmapStep]
    split
    · simp
    · split
      · split <;> simp
      · simp [hp]
  | fetching =>
    dsimp only
    split
    · simp [hp]
    · simp [hcancelled, hfailed]
  | checking | moving =>
    rw [hp] at hplaced
    have hpart : a.view.part.isNone = false := by simpa [view, Placed] using hplaced
    simp [hfail, hpart]
  | hashing data =>
    rw [hp] at hplaced hprogress
    have hinput : a.view.input = file := hprogress
    have hmatches : a.download.metadata = hash ssl file := h.metadata
    cases input with
    | io outcome =>
      dsimp only
      rw [hinput]
      rcases hashStep_file hsize hplaced.2 with ⟨-, hcall⟩ | hstep | ⟨data', hstep, -⟩
      · exact absurd (congrArg Input.io hcall) hio
      · rw [hstep]
        simp [hmatches]
      · rw [hstep]
        simp
    | _ => simp [hp]
  | finished failure =>
    cases failure with
    | none => simp [hp]
    | some reason' => exact absurd hp (hphase reason')

theorem prepareStep_flags {d : Download} (contents : Bytes) (resuming : Bool) (piece : Nat) (data : Bytes)
    (input : Input) :
    (d.prepareStep ssl contents resuming piece data input).cancelled = d.cancelled ∧
      (d.prepareStep ssl contents resuming piece data input).pieceFailed = d.pieceFailed := by
  unfold prepareStep
  split
  · exact ⟨rfl, rfl⟩
  · split
    · split <;> exact ⟨rfl, rfl⟩
    · split
      · split <;> exact ⟨rfl, rfl⟩
      · exact ⟨rfl, rfl⟩

/-- A step of the main thread to another phase, when the workers stand still. -/
theorem OnCourse.enter {d' : Download} (h : OnCourse keeper a.download) (hphase : PhaseOnCourse keeper d' d'.phase)
    (hidle : ∀ w ∈ d'.workers, WorkerOnCourse keeper d' w) (hcancelled : d'.cancelled = a.download.cancelled)
    (hfailed : d'.pieceFailed = false) (hmetadata : d'.metadata = a.download.metadata)
    (hseeders : d'.seeders.length = a.download.seeders.length) : OnCourse keeper d' :=
  ⟨hcancelled.trans h.cancelled, hfailed, fun i hi => hseeders ▸ h.keepers i (hmetadata ▸ hi), hphase, hidle⟩

/-- The bitmap of a keeper is kept, whatever the other seeders show. -/
theorem onCourse_bitmapStep {d : Download} {seeder : Nat} (h : OnCourse keeper d) (hphase : d.phase = .asking seeder)
    (hs : d.Surveyed) (hidle : ∀ w ∈ d.workers, w = .stopped)
    (hdelivers : d.delivers file keeper (.main input) = true) :
    OnCourse keeper (d.bitmapStep seeder input) := by
  have hshown := h.phase
  rw [hphase] at hshown
  have hstopped : ∀ d' : Download, ∀ w ∈ d.workers, WorkerOnCourse keeper d' w := by
    intro d' w hw
    rw [hidle w hw]
    trivial
  unfold bitmapStep
  split
  · next hall =>
    refine ⟨h.cancelled, h.pieceFailed, h.keepers, fun i hi => ?_, hstopped _⟩
    have hkeeper := h.keepers i hi
    exact List.mem_filter.mpr ⟨List.mem_range.mpr hkeeper, hshown i hi (by omega)⟩
  · next hmore =>
    split
    · next now located outcome =>
      simp only [delivers, hphase, Bool.and_eq_true, decide_eq_true_eq] at hdelivers
      obtain ⟨-, hkept⟩ := hdelivers
      have hkeepers : ∀ i < d.metadata.pieceCount, keeper i < (d.seederAt seeder now located).length := by
        rw [length_seederAt]
        exact h.keepers
      split
      · next bitmap hbitmap =>
        rw [hbitmap] at hkept
        refine ⟨h.cancelled, h.pieceFailed, hkeepers, fun i hi hlt => ?_, hstopped _⟩
        change ((d.seederBitmaps.set seeder bitmap).getD (keeper i) []).getD i false = true
        by_cases hnew : keeper i = seeder
        · have hset : (d.seederBitmaps.set seeder bitmap)[seeder]? = some bitmap :=
            List.getElem?_set_self (by rw [hs.bitmaps]; omega)
          rw [hnew, List.getD_eq_getElem?_getD (l := d.seederBitmaps.set seeder bitmap), hset]
          exact (hkept i hi hnew).2
        · have hset : (d.seederBitmaps.set seeder bitmap)[keeper i]? = d.seederBitmaps[keeper i]? :=
            List.getElem?_set_ne (Ne.symm hnew)
          rw [List.getD_eq_getElem?_getD (l := d.seederBitmaps.set seeder bitmap), hset, ← List.getD_eq_getElem?_getD]
          exact hshown i hi (by omega)
      · next result hrefused =>
        refine ⟨h.cancelled, h.pieceFailed, hkeepers, fun i hi hlt => ?_, hstopped _⟩
        by_cases hnew : keeper i = seeder
        · have hsuccess := (hkept i hi hnew).1
          generalize hfetched : PeerClient.fetchBitmap d.metadata.pieceCount outcome = fetched at hsuccess hrefused
          obtain ⟨result, bitmap⟩ := fetched
          exact absurd (by rw [show result = .success from hsuccess]) (hrefused bitmap)
        · exact hshown i hi (by omega)
    · exact h

/-- A step of `run` under these conditions. -/
theorem Sound.onCourse_mainStep (hsize : file.length < 2 ^ 63) (hsound : Sound ssl file a)
    (h : OnCourse keeper a.download)
    (hs : PhaseSurveyed a.download a.download.phase) (hdelivers : a.download.delivers file keeper (.main input) = true) :
    OnCourse keeper (a.download.mainStep ssl a.view input).1 := by
  have hcalls := hdelivers
  simp only [delivers, Bool.and_eq_true, decide_eq_true_eq] at hcalls
  obtain ⟨⟨hfail, hio⟩, -⟩ := hcalls
  have hunfailed : ∀ reason, a.download.phase ≠ .finished (some reason) := by
    intro reason hphase
    have hcourse := h.phase
    rw [hphase] at hcourse
    exact hcourse
  have hproceeds := hsound.proceeds hsize hfail hio h.cancelled h.pieceFailed hunfailed
  have hidle := hsound.progress.idle
  have hstill : a.download.phase ≠ .fetching → ∀ w ∈ a.download.workers, ∀ d', WorkerOnCourse keeper d' w := by
    intro hphase w hw d'
    rw [hidle hphase w hw]
    trivial
  have hcases := mainStep_cases ssl a.download a.view input
  generalize a.download.mainStep ssl a.view input = result at hcases hproceeds ⊢
  cases hcases with
  | stay => exact h
  | notOpened | notTruncated | giveUp | notChecked | notHashed | mismatch | notMoved => exact absurd rfl (hproceeds _)
  | bitmap hphase =>
    rw [hphase] at hs
    exact onCourse_bitmapStep h hphase hs.1 (hidle (by simp [hphase])) hdelivers
  | @prepare resuming piece data hphase =>
    obtain ⟨hsubject, hseeders, hworkers⟩ := @prepareStep_frame a.download ssl a.view.file resuming piece data input
    obtain ⟨hcancelled, hfailed⟩ := @prepareStep_flags ssl a.download a.view.file resuming piece data input
    refine OnCourse.enter h ?_ ?_ hcancelled (hfailed.trans h.pieceFailed) (congrArg (fun s => s.2.2.2) hsubject)
      (congrArg List.length hseeders)
    · rcases @prepareStep_phase a.download ssl a.view.file resuming piece data input hphase with ⟨_, _, hnext⟩ | hnext
      · rw [hnext]
        trivial
      · rw [hnext]
        exact fun i hi hlt => absurd hlt (Nat.not_lt_zero _)
    · intro w hw
      rw [hworkers] at hw
      exact hstill (by simp [hphase]) w hw _
  | publish hphase =>
    have hkeepers := h.phase
    rw [hphase] at hkeepers
    exact OnCourse.enter h hkeepers (fun w hw => hstill (by simp [hphase]) w hw _) rfl h.pieceFailed rfl rfl
  | start hphase =>
    have hkeepers := h.phase
    rw [hphase] at hkeepers
    refine OnCourse.enter h hkeepers (fun w hw => ?_) rfl rfl rfl rfl
    rw [List.eq_of_mem_replicate hw]
    trivial
  | join hphase hstopped =>
    refine OnCourse.enter h trivial (fun w hw => ?_) rfl h.pieceFailed rfl rfl
    rw [hstopped w hw]
    trivial
  | look hphase | opened hphase | truncated hphase | check hphase | hashOn hphase | accept hphase | move hphase
  | shareAgain hphase | add hphase | finish hphase =>
    exact OnCourse.enter h trivial (fun w hw => hstill (by simp [hphase]) w hw _) rfl h.pieceFailed rfl rfl

/-- One step of a served download, and an answer that fits into `cap` bytes. -/
def Served (file : Bytes) (keeper : Nat → Nat) (cap : Nat) (a : Attempt) (action : Download.Action) : Prop :=
  a.download.delivers file keeper action = true ∧ action.received.length ≤ cap

instance (cap : Nat) (action : Download.Action) : Decidable (Served file keeper cap a action) := instDecidableAnd

/-- Every thread of the download has had a turn. -/
def Fair (round : List (Event Attempt Download.Action Effect)) : Prop :=
  ∀ thread ∈ threads, ∃ e ∈ round, e.before.download.takesTurn thread e.input = true

/-- What a served download keeps. -/
structure Delivering (ssl : OpenSsl) (file : Bytes) (keeper : Nat → Nat) (a : Attempt) : Prop where
  sound : Sound ssl file a
  surveyed : PhaseSurveyed a.download a.download.phase
  onCourse : OnCourse keeper a.download

theorem Delivering.step {action : Download.Action} (hsize : file.length < 2 ^ 63) (h : Delivering ssl file keeper a)
    (hdelivers : a.download.delivers file keeper action = true) : Delivering ssl file keeper (a.step ssl action).1 := by
  refine ⟨h.sound.step hsize, step_surveyed a.view action h.surveyed, ?_⟩
  cases action with
  | cancel => simp [delivers] at hdelivers
  | main input => exact h.sound.onCourse_mainStep hsize h.onCourse h.surveyed hdelivers
  | worker k input => exact h.onCourse.workerStep h.sound.progress hdelivers

/-- A download is the inner machine of an attempt. -/
theorem inner_download (ssl : OpenSsl) :
    Machine.Inner (Attempt.step ssl) (advance ssl) Attempt.download (fun a action => (a.view, action)) :=
  fun _ _ => rfl

theorem Delivering.capped {cap : Nat} {action : Download.Action} (h : Delivering ssl file keeper a)
    (hserved : Served file keeper cap a action) : Capped cap file.length a.download (a.view, action) := by
  refine ⟨hserved.2, fun hhashing => ?_⟩
  have hcontents := h.sound.progress.phase
  cases hphase : a.download.phase with
  | hashing data =>
    rw [hphase] at hcontents
    exact (congrArg List.length hcontents).le
  | _ => simp [hphase, Phase.isHashing] at hhashing

theorem Delivering.arrived (h : Delivering ssl file keeper a) (hfinished : a.download.isFinished = true) :
    a.download.phase = .finished none ∧ a.disk = ⟨none, some file⟩ := by
  unfold isFinished at hfinished
  split at hfinished
  · next failure hphase =>
    cases failure with
    | some reason =>
      have hcourse := h.onCourse.phase
      rw [hphase] at hcourse
      exact hcourse.elim
    | none =>
      have hplaced := h.sound.placed
      have hdestination := h.sound.destination_eq (by rw [hphase]; rfl)
      rw [hphase] at hplaced
      refine ⟨hphase, ?_⟩
      rw [← hplaced.1, ← hdestination]
  · simp at hfinished

/-- What is on course arrives after as many fair rounds as the rank says. -/
theorem Delivering.ends {cap : Nat} {rounds : List (List Download.Action)} (hsize : file.length < 2 ^ 63)
    (h : Delivering ssl file keeper a) (hpooled : a.download.Pooled)
    (hserved : Machine.Along (Attempt.step ssl) (Served file keeper cap) a rounds.flatten)
    (hfair : Machine.Rounds (Attempt.step ssl) Fair a rounds)
    (hmany : a.download.rank cap file.length < rounds.length) :
    (Machine.run (Attempt.step ssl) a rounds.flatten).download.phase = .finished none ∧
      (Machine.run (Attempt.step ssl) a rounds.flatten).disk = ⟨none, some file⟩ := by
  have hend : Delivering ssl file keeper (Machine.run (Attempt.step ssl) a rounds.flatten) :=
    Machine.invariant_along h (fun c action hc hok => hc.step hsize hok.1) hserved
  refine hend.arrived ?_
  have hcapped : Machine.Along (advance ssl) (Capped cap file.length) a.download
      (Machine.through (Attempt.step ssl) (fun a action => (a.view, action)) a rounds.flatten) :=
    (inner_download ssl).along_through h (fun c action hc hok => hc.step hsize hok.1)
      (fun c action hc hok => hc.capped hok) hserved
  have hrounds : Machine.Rounds (advance ssl) Download.Fair a.download
      (Machine.roundsThrough (Attempt.step ssl) (fun a action => (a.view, action)) a rounds) := by
    refine (inner_download ssl).rounds_through (fun c inputs hround thread hthread => ?_) hfair
    obtain ⟨e, he, hturn⟩ := hround thread hthread
    exact ⟨_, (inner_download ssl).mem_events he, hturn⟩
  have hreturns := (runsDown cap file.length ssl).ends (fun d i _ _ hd => step_isFinished hd)
    (fun d inputs h _ hround hsame => finished_of_unchanged h hround hsame) hpooled
    (by rwa [Machine.flatten_roundsThrough]) hrounds (by rwa [Machine.length_roundsThrough])
  have hinner : Machine.run (advance ssl) a.download
      (Machine.through (Attempt.step ssl) (fun a action => (a.view, action)) a rounds.flatten) =
        (Machine.run (Attempt.step ssl) a rounds.flatten).download :=
    (inner_download ssl).run_through
  rw [Machine.flatten_roundsThrough] at hreturns
  rw [← hinner]
  exact hreturns

theorem delivering_create (hsize : file.length < 2 ^ 63) (hunique : UniquePieces ssl file)
    {group name destination : Bytes} {seeders : List SeederAccess} (hne : seeders ≠ []) (disk : Disk)
    (hkeeper : ∀ i < (hash ssl file).pieceCount, keeper i < seeders.length) :
    Delivering ssl file keeper ⟨create group name destination (hash ssl file) seeders, disk⟩ :=
  ⟨sound_create hsize hunique hne disk, trivial, rfl, rfl, hkeeper, trivial, by simp [create]⟩

/-- A download whose pieces all have a keeper, whatever the other seeders answer and in whatever order the threads take
their turns, has moved the file to its destination after as many rounds of turns as its rank says. -/
theorem served_arrives (ssl : OpenSsl) (file : Bytes) (hsize : file.length < 2 ^ 63) (hunique : UniquePieces ssl file)
    (group name destination : Bytes) (seeders : List SeederAccess) (hne : seeders ≠ []) (disk : Disk)
    (keeper : Nat → Nat) (hkeeper : ∀ i < (hash ssl file).pieceCount, keeper i < seeders.length) (cap : Nat)
    (rounds : List (List Download.Action)) :
    let a : Attempt := ⟨create group name destination (hash ssl file) seeders, disk⟩
    Machine.Along (Attempt.step ssl) (Served file keeper cap) a rounds.flatten →
    Machine.Rounds (Attempt.step ssl) Fair a rounds → a.download.rank cap file.length < rounds.length →
    let b := Machine.run (Attempt.step ssl) a rounds.flatten
    b.download.phase = .finished none ∧ b.disk = ⟨none, some file⟩ := by
  intro a hserved hfair hmany b
  have hstart : Delivering ssl file keeper a := delivering_create hsize hunique hne disk hkeeper
  exact hstart.ends hsize (create_pooled group name destination (hash ssl file) seeders) hserved hfair hmany

section Example

/-- The second seeder keeps the piece; the first one shows it, and sends other data. -/
def servedTurns : List Download.Action :=
  List.replicate 4 (.main .ok) ++ List.replicate 2 (.main (.reply 1000 none (.success, [1]))) ++
    List.replicate 3 (.main .ok) ++ List.replicate 3 (.worker 0 .ok) ++
    [.worker 0 (.reply 1001 none (.success, lit "jello")), .worker 0 .ok,
      .worker 0 (.reply 1002 none (.success, lit "hello")), .worker 0 (.io .interrupted), .worker 0 (.io (.upTo 9))] ++
    List.replicate 5 (.worker 0 .ok) ++ List.replicate 2 (.main .ok) ++ [.main (.io (.upTo 9))] ++
    List.replicate 4 (.main .ok) ++ (List.range MAX_THREADS).map (fun k => .worker k .ok)

def servedHello : Attempt :=
  ⟨create (lit "g") (lit "f") (lit "out") (hash helloRecording.replay (lit "hello"))
    [⟨⟨lit "10.0.0.2", 6881⟩, [], []⟩, seederOfHello], ⟨none, none⟩⟩

deriving instance DecidableEq for Attempt

instance (round : List (Event Attempt Download.Action Effect)) : Decidable (Fair round) :=
  inferInstanceAs (Decidable (∀ thread ∈ threads, ∃ e ∈ round, e.before.download.takesTurn thread e.input = true))

theorem served_arrives_hello : (Machine.run (Attempt.step helloRecording.replay) servedHello
    (List.replicate (servedHello.download.rank 5 5 + 1) servedTurns).flatten).disk = ⟨none, some (lit "hello")⟩ := by
  generalize hlast : Machine.run (Attempt.step helloRecording.replay) servedHello servedTurns = last
  have hsame : Machine.run (Attempt.step helloRecording.replay) last servedTurns = last := by
    rw [← hlast]
    decide +kernel
  have hfirst : Machine.Along (Attempt.step helloRecording.replay) (Served (lit "hello") (fun _ => 1) 5) servedHello
      servedTurns := by decide +kernel
  have hlater : Machine.Along (Attempt.step helloRecording.replay) (Served (lit "hello") (fun _ => 1) 5) last
      servedTurns := by
    rw [← hlast]
    decide +kernel
  have hfair : Fair (Machine.events (Attempt.step helloRecording.replay) servedHello servedTurns) := by decide +kernel
  have hfair' : Fair (Machine.events (Attempt.step helloRecording.replay) last servedTurns) := by
    rw [← hlast]
    decide +kernel
  refine (served_arrives helloRecording.replay (lit "hello") (by decide) uniquePieces_hello _ _ _ _ (by simp) ⟨none, none⟩
    (fun _ => 1) (fun _ _ => by decide) 5 (List.replicate (servedHello.download.rank 5 5 + 1) servedTurns) ?_ ?_ ?_).2
  · rw [List.replicate_succ, List.flatten_cons]
    refine Machine.Along.append.mpr ⟨hfirst, ?_⟩
    have hrest := hlater.replicate hsame (servedHello.download.rank 5 5)
    rw [← hlast] at hrest
    exact hrest
  · refine ⟨hfair, ?_⟩
    have hrest := Machine.Rounds.replicate hfair' hsame (servedHello.download.rank 5 5)
    rw [← hlast] at hrest
    exact hrest
  · rw [List.length_replicate]
    exact Nat.lt_succ_self _

end Example

end Attempt

end TorrentAtlas
