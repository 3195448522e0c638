import TorrentAtlas.WorkerPool

/-!
# What `show_downloads` prints (`client/download/download.cpp`, `client/download/download_manager.cpp`)

`printSummary` reads the state of a download, its counters and its failure one after the
other, while `run` and the workers go on. A line may mix several moments; still it says
nothing that was not so, and no later line takes it back.
-/
namespace TorrentAtlas

open Encoding Crypto

namespace Download

/-- `state`, read under the lock. -/
def state (d : Download) : UInt8 :=
  match d.phase with
  | .finished none => chr 'C'
  | .finished (some _) => chr 'F'
  | _ => chr 'D'

/-- The end of the line, read under the lock. -/
def reasonText (d : Download) : Bytes :=
  match d.phase with
  | .finished (some reason) => if reason.isEmpty then [] else lit " reason=\"" ++ reason ++ lit "\""
  | _ => []

/-- The download as `printSummary` finds it at each of its reads. -/
structure Reading where
  state : Download
  progress : Download
  resumed : Download
  failures : Download
  reason : Download

def printSummary (r : Reading) : Bytes :=
  let current := r.state.state
  lit "[" ++ [current] ++ lit "] [" ++ r.state.group ++ lit "] " ++ r.state.name ++
    (if current = chr 'D' then
      lit " (" ++ decimal r.progress.completed.length ++ lit "/" ++ decimal r.progress.metadata.pieceCount ++
        lit " pieces)"
    else []) ++
    lit " resumed=" ++ decimal r.resumed.resumedPieces ++ lit " integrity-failures=" ++
    decimal r.failures.integrityFailures ++ r.reason.reasonText ++ lit "\n"

/-- A call of `printSummary` after `d`: the download goes on between the reads. -/
structure Reading.After (ssl : OpenSsl) (d : Download) (r : Reading) : Prop where
  state : Machine.Reachable (advance ssl) d r.state
  progress : Machine.Reachable (advance ssl) r.state r.progress
  resumed : Machine.Reachable (advance ssl) r.progress r.resumed
  failures : Machine.Reachable (advance ssl) r.resumed r.failures
  reason : Machine.Reachable (advance ssl) r.failures r.reason

def failureReasons : List Bytes :=
  [unableToCreate, cancelledByUser, notReconstructed, hashingFailed, integrityCheckFailed, unableToMove]

/-- The counters of `show_downloads` do not go down. -/
structure CountsOn (d e : Download) : Prop where
  completed : d.completed.length ≤ e.completed.length
  resumed : d.resumedPieces ≤ e.resumedPieces
  failures : d.integrityFailures ≤ e.integrityFailures

theorem CountsOn.refl (d : Download) : CountsOn d d := ⟨Nat.le_refl _, Nat.le_refl _, Nat.le_refl _⟩

theorem CountsOn.trans {d e f : Download} (h : CountsOn d e) (h' : CountsOn e f) : CountsOn d f :=
  ⟨h.completed.trans h'.completed, h.resumed.trans h'.resumed, h.failures.trans h'.failures⟩

theorem CountsOn.of_eq {d e : Download} (hcompleted : e.completed = d.completed)
    (hresumed : e.resumedPieces = d.resumedPieces) (hfailures : e.integrityFailures = d.integrityFailures) :
    CountsOn d e :=
  ⟨by rw [hcompleted], by rw [hresumed], by rw [hfailures]⟩

section Steps

variable {d e : Download} {ssl : OpenSsl}

/-- The loop of `prepare` counts what it keeps, and publishes the number at its end. -/
theorem countsOn_prepareStep {file : Bytes} {resuming : Bool} {piece : Nat} {data : Bytes} {input : Input}
    (h : d.completed = []) : CountsOn d (d.prepareStep ssl file resuming piece data input) := by
  unfold prepareStep
  split
  · exact ⟨by simp [h], Nat.le_refl _, Nat.le_refl _⟩
  · split
    · split
      · exact ⟨Nat.le_refl _, Nat.le_succ _, Nat.le_refl _⟩
      · exact .of_eq rfl rfl rfl
    · split
      · split <;> exact .of_eq rfl rfl rfl
      · exact .refl d

theorem countsOn_bitmapStep {seeder : Nat} {input : Input} : CountsOn d (d.bitmapStep seeder input) := by
  unfold bitmapStep
  split
  · exact .of_eq rfl rfl rfl
  · split
    · dsimp only
      split <;> exact .of_eq rfl rfl rfl
    · exact .refl d

theorem countsOn_mainStep {view : View} {input : Input}
    (hreading : ∀ resuming piece data, d.phase = .reading resuming piece data → d.completed = []) :
    CountsOn d (d.mainStep ssl view input).1 := by
  have h := mainStep_cases ssl d view input
  generalize d.mainStep ssl view input = result at h
  cases h with
  | prepare hphase => exact countsOn_prepareStep (hreading _ _ _ hphase)
  | bitmap hphase => exact countsOn_bitmapStep
  | _ => exact .of_eq rfl rfl rfl

theorem countsOn_answerStep {k piece attempt seeder : Nat} {now : Int} {located : Option (List SeederAccess)}
    {outcome : Outcome} : CountsOn d (d.answerStep ssl k piece attempt seeder now located outcome) := by
  unfold answerStep
  dsimp only
  split
  · exact .of_eq rfl rfl rfl
  · exact ⟨Nat.le_refl _, Nat.le_refl _, Nat.le_succ _⟩
  · exact .of_eq rfl rfl rfl

theorem countsOn_workerStep {file : Bytes} {k : Nat} {input : Input} :
    CountsOn d (d.workerStep ssl file k input).1 := by
  have h := workerStep_cases ssl d file k input
  generalize d.workerStep ssl file k input = result at h
  cases h with
  | answer hw => exact countsOn_answerStep
  | count hw => exact ⟨by simp, Nat.le_refl _, Nat.le_refl _⟩
  | _ => exact .of_eq rfl rfl rfl

theorem countsOn_step {view : View} {action : Action}
    (hreading : ∀ resuming piece data, d.phase = .reading resuming piece data → d.completed = []) :
    CountsOn d (d.step ssl view action).1 := by
  cases action with
  | cancel => exact .of_eq rfl rfl rfl
  | main input => exact countsOn_mainStep hreading
  | worker k input => exact countsOn_workerStep

/-- A failed `run` leaves one of its reasons. -/
def Named (d : Download) : Prop := ∀ reason, d.phase = .finished (some reason) → reason ∈ failureReasons

theorem step_named {view : View} {action : Action} (h : d.Named) : (d.step ssl view action).1.Named := by
  cases action with
  | cancel => exact h
  | worker k input =>
    intro reason hphase
    simp only [step, (@workerStep_frame d ssl view.file k input).2.1] at hphase
    exact h reason hphase
  | main input =>
    intro reason hphase
    simp only [step] at hphase
    have hstep := mainStep_cases ssl d view input
    generalize d.mainStep ssl view input = result at hstep hphase
    cases hstep with
    | stay => exact h reason hphase
    | prepare hp =>
      unfold prepareStep at hphase
      repeat' split at hphase
      all_goals simp [hp] at hphase
    | bitmap hp =>
      unfold bitmapStep at hphase
      dsimp only at hphase
      repeat' split at hphase
      all_goals simp [hp] at hphase
    | giveUp hp hstopped reason' hreason =>
      obtain rfl : reason' = reason := by simpa [finish] using hphase
      rcases hreason with rfl | rfl <;> simp [failureReasons]
    | notOpened hp | notTruncated hp | notChecked hp | notHashed hp hhash | mismatch hp hhash hactual | notMoved hp =>
      simp only [finish, Phase.finished.injEq, Option.some.injEq] at hphase
      simp [failureReasons, ← hphase]
    | _ => simp [finish] at hphase

/-- After `run` has returned nothing changes but the wish to cancel. -/
theorem step_returned {view : View} {action : Action} {failure : Option Bytes} (hidle : d.Idle)
    (hphase : d.phase = .finished failure) :
    (d.step ssl view action).1 = d ∨ (d.step ssl view action).1 = { d with cancelled := true } := by
  cases action with
  | cancel => exact Or.inr rfl
  | main input => exact Or.inl (by simp [step, mainStep, hphase])
  | worker k input =>
    refine Or.inl ?_
    simp only [step]
    rw [workerStep_idle view.file k input (hidle (by simp [hphase]))]

theorem reachable_returned {failure : Option Bytes} (hidle : d.Idle) (hphase : d.phase = .finished failure)
    (h : Machine.Reachable (advance ssl) d e) : e = d ∨ e = { d with cancelled := true } := by
  refine Machine.invariant (P := fun e => e = d ∨ e = { d with cancelled := true }) (Or.inl rfl) ?_ h
  rintro e i (rfl | rfl)
  · exact step_returned hidle hphase
  · have hstep : (({ d with cancelled := true } : Download).step ssl i.1 i.2).1 = { d with cancelled := true } ∨
        (({ d with cancelled := true } : Download).step ssl i.1 i.2).1 = { d with cancelled := true } :=
      step_returned (d := { d with cancelled := true }) hidle hphase
    exact Or.inr ((or_self_iff).mp hstep)

theorem reachable_trans {s : Download} (h : Machine.Reachable (advance ssl) s d)
    (h' : Machine.Reachable (advance ssl) d e) : Machine.Reachable (advance ssl) s e := by
  obtain ⟨a, rfl⟩ := h
  obtain ⟨b, rfl⟩ := h'
  exact ⟨a ++ b, Machine.run_append _ _ _ _⟩

end Steps

section Runs

variable {ssl : OpenSsl} {group name destination : Bytes} {metadata : FileMetadata} {seeders : List SeederAccess}
  {d e : Download} {r r' : Reading}

theorem reachable_subject (h : Machine.Reachable (advance ssl) (create group name destination metadata seeders) d) :
    d.subject = (group, name, destination, metadata) :=
  Machine.invariant (P := fun d : Download => d.subject = (group, name, destination, metadata)) rfl
    (fun _ i hd => (step_subject i.1 i.2).trans hd) h

theorem reachable_named (h : Machine.Reachable (advance ssl) (create group name destination metadata seeders) d) :
    d.Named :=
  Machine.invariant (P := Named) (by simp [Named, create]) (fun _ _ hd => step_named hd) h

theorem reachable_countsOn (hseeders : seeders ≠ [])
    (hd : Machine.Reachable (advance ssl) (create group name destination metadata seeders) d)
    (h : Machine.Reachable (advance ssl) d e) : CountsOn d e := by
  refine (Machine.invariant (P := fun e => Machine.Reachable (advance ssl)
    (create group name destination metadata seeders) e ∧ CountsOn d e) ⟨hd, .refl d⟩ ?_ h).2
  rintro e i ⟨he, hcounts⟩
  refine ⟨he.next i, hcounts.trans (countsOn_step fun resuming piece data hphase => ?_)⟩
  obtain ⟨inputs, rfl⟩ := he
  have hpool := (booked ssl group name destination metadata seeders hseeders inputs).phase
  rw [hphase] at hpool
  exact hpool.2.2.1

/-- Two lines of `show_downloads` about one download, the second one printed after the first. -/
structure Honest (group name : Bytes) (metadata : FileMetadata) (r r' : Reading) : Prop where
  subject : r.state.group = group ∧ r.state.name = name ∧ r.progress.metadata = metadata
  /-- The line of a download that has ended is printed again. -/
  final : r.state.isFinished = true → printSummary r' = printSummary r
  complete : r.state.state = chr 'C' →
    r.reason.reasonText = [] ∧ r.state.completed.length = metadata.pieceCount
  failed : r.state.state = chr 'F' → ∃ reason ∈ failureReasons,
    r.reason.reasonText = lit " reason=\"" ++ reason ++ lit "\""
  bounded : r.progress.completed.length ≤ metadata.pieceCount
  /-- A download may fail while its line is printed. -/
  torn : r.reason.reasonText ≠ [] → r'.state.state = chr 'F' ∧ r'.reason.reasonText = r.reason.reasonText
  completed : r.progress.completed.length ≤ r'.progress.completed.length
  resumed : r.resumed.resumedPieces ≤ r'.resumed.resumedPieces
  failures : r.failures.integrityFailures ≤ r'.failures.integrityFailures

/-- All reads of a line find the download as it was when `run` returned. -/
theorem printSummary_returned {failure : Option Bytes} (hidle : d.Idle) (hphase : d.phase = .finished failure)
    (hr : r.After ssl d) : printSummary r = printSummary ⟨d, d, d, d, d⟩ := by
  have hsecond := reachable_trans hr.state hr.progress
  have hthird := reachable_trans hsecond hr.resumed
  have hfourth := reachable_trans hthird hr.failures
  have hstate := reachable_returned hidle hphase hr.state
  have hprogress := reachable_returned hidle hphase hsecond
  have hresumed := reachable_returned hidle hphase hthird
  have hfailures := reachable_returned hidle hphase hfourth
  have hreason := reachable_returned hidle hphase (reachable_trans hfourth hr.reason)
  obtain ⟨state, progress, resumed, failures, reason⟩ := r
  dsimp only at hstate hprogress hresumed hfailures hreason
  rcases hstate with rfl | rfl <;> rcases hprogress with rfl | rfl <;> rcases hresumed with rfl | rfl <;>
    rcases hfailures with rfl | rfl <;> rcases hreason with rfl | rfl <;> rfl

theorem phase_of_returned {failure : Option Bytes} (hidle : d.Idle) (hphase : d.phase = .finished failure)
    (h : Machine.Reachable (advance ssl) d e) : e.phase = .finished failure := by
  rcases reachable_returned hidle hphase h with rfl | rfl <;> exact hphase

theorem phase_of_failed (h : d.state = chr 'F') : ∃ reason, d.phase = .finished (some reason) := by
  unfold state at h
  split at h
  · simp [chr] at h
  · next reason hphase => exact ⟨reason, hphase⟩
  · simp [chr] at h

theorem phase_of_complete (h : d.state = chr 'C') : d.phase = .finished none := by
  unfold state at h
  split at h
  · next hphase => exact hphase
  · simp [chr] at h
  · simp [chr] at h

theorem phase_of_reasonText (h : d.reasonText ≠ []) : ∃ reason, d.phase = .finished (some reason) := by
  unfold reasonText at h
  split at h
  · next reason hphase => exact ⟨reason, hphase⟩
  · simp at h

theorem reasonText_of_named {reason : Bytes} (h : reason ∈ failureReasons)
    (hphase : d.phase = .finished (some reason)) :
    d.reasonText = lit " reason=\"" ++ reason ++ lit "\"" := by
  have hfilled : ∀ reason ∈ failureReasons, reason.isEmpty = false := by decide +kernel
  simp only [reasonText, hphase, hfilled reason h, Bool.false_eq_true, if_false]

/-- However a download goes on between the reads of a line and between two lines, the lines say nothing that was not so,
and the second one takes nothing back. -/
theorem show_downloads_honest (ssl : OpenSsl) (group name destination : Bytes) (metadata : FileMetadata)
    (seeders : List SeederAccess) (hseeders : seeders ≠ []) (r r' : Reading)
    (hr : r.After ssl (create group name destination metadata seeders)) (hr' : r'.After ssl r.reason) :
    Honest group name metadata r r' := by
  have hprogress := reachable_trans hr.state hr.progress
  have hresumed := reachable_trans hprogress hr.resumed
  have hfailures := reachable_trans hresumed hr.failures
  have hreason := reachable_trans hfailures hr.reason
  have hlate := reachable_trans hr.resumed (reachable_trans hr.failures hr.reason)
  have hstate' := reachable_trans hr'.state hr'.progress
  have hreason' := reachable_trans hstate' (reachable_trans hr'.resumed (reachable_trans hr'.failures hr'.reason))
  have hstates := reachable_subject hr.state
  have hprogresses := reachable_subject hprogress
  simp only [subject, Prod.mk.injEq] at hstates hprogresses
  obtain ⟨hsurveyed, hidle⟩ := reachable_surveyed hr.state
  have hidles := (reachable_surveyed hreason).2
  have hwhole := reachable_trans hr.progress (reachable_trans hr.resumed (reachable_trans hr.failures hr.reason))
  refine ⟨⟨hstates.1, hstates.2.1, hprogresses.2.2.2⟩, fun hfinished => ?_, fun hcomplete => ⟨?_, ?_⟩, fun hfailed => ?_,
    ?_, fun htorn => ?_, ?_, ?_, ?_⟩
  · obtain ⟨failure, hphase⟩ : ∃ failure, r.state.phase = .finished failure := by
      unfold isFinished at hfinished
      split at hfinished
      · next failure hphase => exact ⟨failure, hphase⟩
      · simp at hfinished
    have hthis : r.After ssl r.state := ⟨.refl _, hr.progress, hr.resumed, hr.failures, hr.reason⟩
    have hnext : r'.After ssl r.state :=
      ⟨reachable_trans hwhole hr'.state, hr'.progress, hr'.resumed, hr'.failures, hr'.reason⟩
    rw [printSummary_returned hidle hphase hthis, printSummary_returned hidle hphase hnext]
  · have hphase := phase_of_returned hidle (phase_of_complete hcomplete) hwhole
    simp only [reasonText, hphase]
  · have hphase := phase_of_complete hcomplete
    obtain ⟨inputs, hinputs⟩ := hr.state
    have hpool := booked ssl group name destination metadata seeders hseeders inputs
    rw [hinputs] at hpool
    have hcount := (hpool.complete hsurveyed hidle (.inr (by rw [hphase]; rfl))).2.2.2
    rwa [hstates.2.2.2] at hcount
  · obtain ⟨reason, hphase⟩ := phase_of_failed hfailed
    have hnamed := reachable_named hr.state reason hphase
    exact ⟨reason, hnamed, reasonText_of_named hnamed (phase_of_returned hidle hphase hwhole)⟩
  · obtain ⟨inputs, hinputs⟩ := hprogress
    have hbounded := (booked ssl group name destination metadata seeders hseeders inputs).bounded
    rwa [hinputs, hprogresses.2.2.2] at hbounded
  · obtain ⟨reason, hphase⟩ := phase_of_reasonText htorn
    have hnamed := reachable_named hreason reason hphase
    have hafter := phase_of_returned hidles hphase hr'.state
    have hend := phase_of_returned hidles hphase hreason'
    refine ⟨by simp only [state, hafter], ?_⟩
    rw [reasonText_of_named hnamed hend, reasonText_of_named hnamed hphase]
  · exact (reachable_countsOn hseeders hprogress (reachable_trans hlate hstate')).completed
  · exact (reachable_countsOn hseeders hresumed (reachable_trans hr.failures (reachable_trans hr.reason
      (reachable_trans hstate' hr'.resumed)))).resumed
  · exact (reachable_countsOn hseeders hfailures (reachable_trans hr.reason
      (reachable_trans hstate' (reachable_trans hr'.resumed hr'.failures)))).failures

end Runs

section Example

def begun : Download := create (lit "g") (lit "f") (lit "out") honestMetadata [nobody]

def notOpened : List (View × Action) := [(newFile, .main .ok), (newFile, .main .fail)]

def afterNotOpened : Download := Machine.run (advance (Recording.replay {})) begun notOpened

/-- The file cannot be opened while the line about the download is printed. -/
def tornLine : Reading := ⟨begun, begun, begun, begun, afterNotOpened⟩

def nextLine : Reading := ⟨afterNotOpened, afterNotOpened, afterNotOpened, afterNotOpened, afterNotOpened⟩

theorem show_downloads_honest_torn :
    printSummary tornLine = lit "[D] [g] f (0/1 pieces) resumed=0 integrity-failures=0" ++
      lit " reason=\"unable to create destination file\"\n" ∧
    nextLine.state.state = chr 'F' ∧ nextLine.reason.reasonText = tornLine.reason.reasonText := by
  have htorn : tornLine.After (Recording.replay {}) begun := ⟨.refl _, .refl _, .refl _, .refl _, notOpened, rfl⟩
  have hnext : nextLine.After (Recording.replay {}) tornLine.reason := ⟨.refl _, .refl _, .refl _, .refl _, .refl _⟩
  have hreason : tornLine.reason.reasonText ≠ [] := by decide +kernel
  have hhonest := show_downloads_honest (Recording.replay {}) (lit "g") (lit "f") (lit "out") honestMetadata [nobody]
    (by simp) tornLine nextLine htorn hnext
  exact ⟨by decide +kernel, hhonest.torn hreason⟩

end Example

end Download

end TorrentAtlas
