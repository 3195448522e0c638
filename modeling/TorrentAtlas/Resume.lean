import TorrentAtlas.DownloadProgress
import TorrentAtlas.Library.Machine

/-!
# Reconstruction and resume

One download and the files at its `.part` path and its destination, which nobody
else touches. Peers, workers and the moment of `cancel` are arbitrary.
-/
namespace TorrentAtlas

open Encoding Crypto PieceFile FileMetadata Download

structure Disk where
  part : Option Bytes
  destination : Option Bytes
  deriving DecidableEq, Repr

/-- A download and its files. -/
structure Attempt where
  download : Download
  disk : Disk

namespace Disk

/-- The file the download has opened: at its `.part` path until it is moved into place. -/
def opened (disk : Disk) : Bytes := (disk.part.or disk.destination).getD []

def apply (disk : Disk) : Effect → Disk
  | .openPart => { disk with part := some (disk.part.getD []) }
  | .write contents => { disk with part := some contents }
  | .rename =>
    match disk.part with
    | some contents => ⟨none, some contents⟩
    | none => disk
  | _ => disk

end Disk

namespace Attempt

variable (ssl : OpenSsl)

def view (a : Attempt) : View := ⟨a.disk.part, a.disk.opened, a.disk.opened⟩

def step (a : Attempt) (action : Download.Action) : Attempt × Effect :=
  let result := a.download.step ssl a.view action
  (⟨result.1, a.disk.apply result.2⟩, result.2)

/-- Another attempt at the same file and destination, on the files as they are. -/
def again (a : Attempt) (seeders : List SeederAccess) : Attempt :=
  ⟨create a.download.group a.download.name a.download.destination a.download.metadata seeders, a.disk⟩

/-- Where the file is in each phase, and what `hash` has read of it. -/
def Placed (file : Bytes) (disk : Disk) (completed : List Nat) : Phase → Prop
  | .starting | .opening _ => completed = []
  | .hashing data => disk.part.isSome ∧ data = file.take data.length
  | .sharingAgain | .adding | .finishing | .finished none => disk.part = none ∧ disk.destination.isSome
  | .finished (some reason) => reason ≠ integrityCheckFailed ∧ (completed ≠ [] → disk.part.isSome)
  | _ => disk.part.isSome

structure Sound (file : Bytes) (a : Attempt) : Prop where
  metadata : a.download.metadata = hash ssl file
  progress : Progress ssl file a.download a.disk.opened
  placed : Placed file a.disk a.download.completed a.download.phase

variable {ssl : OpenSsl} {file : Bytes} {a : Attempt}

/-- SHA-1 has no second preimage of any piece of the file. -/
def UniquePieces (ssl : OpenSsl) (file : Bytes) : Prop :=
  ∀ i < (hash ssl file).pieceCount, ∀ data,
    sha1Hex ssl data = sha1Hex ssl ((hash ssl file).piece file i) → data = (hash ssl file).piece file i

theorem describes_hash (hsize : file.length < 2 ^ 63) (hunique : UniquePieces ssl file) :
    Describes ssl (hash ssl file) file := by
  have hbound : file.length < u64Bound := by
    simp only [u64Bound]
    omega
  refine ⟨pieceCount_hash_eq ssl hbound, (hash_size ssl hbound).symm, fun i hi data => ?_⟩
  have hhash := getElem?_pieceHashes ssl hbound hi
  rw [List.getD_eq_getElem?_getD, hhash, Option.getD_some]
  exact ⟨fun h => hunique i hi data h, fun h => by rw [h]; rfl⟩

/-- A round of `hash` on the whole file reads on, fails on a failed read, or ends with its metadata. -/
theorem hashStep_file (hsize : file.length < 2 ^ 63) {data : Bytes} {io : Transfer}
    (hdata : data = file.take data.length) :
    (hashStep ssl file data io = .failed ∧ io = .failed) ∨ hashStep ssl file data io = .done (hash ssl file) ∨
      ∃ data', hashStep ssl file data io = .more data' ∧ data' = file.take data'.length := by
  rcases hashStep_cases ssl hdata with ⟨hfailed, hio⟩ | ⟨hdone, -⟩ | hmore
  · exact Or.inl ⟨hfailed, hio.resolve_right (by omega)⟩
  · exact Or.inr (Or.inl hdone)
  · exact Or.inr (Or.inr hmore)

theorem opened_apply {disk : Disk} {effect : Effect} (hopen : effect ≠ .openPart)
    (hrename : effect = .rename → disk.part.isSome) : (disk.apply effect).opened = effect.after disk.opened := by
  cases effect with
  | openPart => exact absurd rfl hopen
  | rename =>
    obtain ⟨contents, hpart⟩ := Option.isSome_iff_exists.mp (hrename rfl)
    simp [Disk.apply, Disk.opened, hpart, Effect.after]
  | write contents => simp [Disk.apply, Disk.opened, Effect.after]
  | _ => rfl

theorem opened_of_part {disk : Disk} (h : disk.part.isSome) : disk.part = some disk.opened := by
  obtain ⟨contents, hpart⟩ := Option.isSome_iff_exists.mp h
  simp [Disk.opened, hpart]

section Sound

variable {d : Download} {disk : Disk} {input : Input}

theorem placed_prepareStep {resuming : Bool} {i : Nat} {data : Bytes} (hphase : d.phase = .reading resuming i data)
    (hpart : disk.part.isSome) (contents : Bytes) :
    Placed file disk (d.prepareStep ssl contents resuming i data input).completed
      (d.prepareStep ssl contents resuming i data input).phase := by
  rcases @prepareStep_phase d ssl contents resuming i data input hphase with ⟨i', data', hnext⟩ | hnext
  · rw [hnext]
    exact hpart
  · rw [hnext]
    exact hpart

theorem placed_bitmapStep {seeder : Nat} (hphase : d.phase = .asking seeder) (hpart : disk.part.isSome) :
    Placed file disk (d.bitmapStep seeder input).completed (d.bitmapStep seeder input).phase := by
  unfold Download.bitmapStep
  split
  · exact hpart
  · split
    · dsimp only
      split <;> exact hpart
    · rw [hphase]
      exact hpart

/-- A step of the main thread finds and leaves the files where the phase says. -/
theorem placed_mainStep (hsize : file.length < 2 ^ 63) {a : Attempt} (h : Sound ssl file a) :
    Placed file (a.disk.apply (a.download.mainStep ssl a.view input).2) (a.download.mainStep ssl a.view input).1.completed
      (a.download.mainStep ssl a.view input).1.phase := by
  have hplaced := h.placed
  have hprogress := h.progress.phase
  have hcases := mainStep_cases ssl a.download a.view input
  generalize a.download.mainStep ssl a.view input = result at hcases ⊢
  cases hcases with
  | stay => exact hplaced
  | opened | truncated => rfl
  | notOpened hphase =>
    rw [hphase] at hplaced
    exact ⟨by decide, fun hne => absurd hplaced hne⟩
  | prepare hphase =>
    rw [hphase] at hplaced
    exact placed_prepareStep hphase hplaced _
  | bitmap hphase =>
    rw [hphase] at hplaced
    exact placed_bitmapStep hphase hplaced
  | notTruncated hphase | notChecked hphase | notMoved hphase =>
    rw [hphase] at hplaced
    exact ⟨by decide, fun _ => hplaced⟩
  | giveUp hphase _ reason hreason =>
    rw [hphase] at hplaced
    refine ⟨?_, fun _ => hplaced⟩
    rcases hreason with rfl | rfl <;> decide
  | check hphase =>
    rw [hphase] at hplaced
    exact ⟨hplaced, rfl⟩
  | notHashed hphase =>
    rw [hphase] at hplaced
    exact ⟨by decide, fun _ => hplaced.1⟩
  | hashOn hphase hhash =>
    rw [hphase] at hplaced hprogress
    rw [show a.view.input = file from hprogress] at hhash
    rcases hashStep_file hsize hplaced.2 with ⟨hstep, -⟩ | hstep | ⟨data', hstep, hdata'⟩
    · exact absurd (hstep.symm.trans hhash) (by simp)
    · exact absurd (hstep.symm.trans hhash) (by simp)
    · obtain rfl := HashStep.more.inj (hstep.symm.trans hhash)
      exact ⟨hplaced.1, hdata'⟩
  | mismatch hphase hhash hactual =>
    -- What has been hashed is the file, so the hashes agree.
    rw [hphase] at hplaced hprogress
    rw [show a.view.input = file from hprogress] at hhash
    rcases hashStep_file hsize hplaced.2 with ⟨hstep, -⟩ | hstep | ⟨data', hstep, -⟩
    · exact absurd (hstep.symm.trans hhash) (by simp)
    · obtain rfl := HashStep.done.inj (hstep.symm.trans hhash)
      simp [h.metadata] at hactual
    · exact absurd (hstep.symm.trans hhash) (by simp)
  | accept hphase =>
    rw [hphase] at hplaced
    exact hplaced.1
  | move hphase =>
    rw [hphase] at hplaced
    obtain ⟨contents, hpart⟩ := Option.isSome_iff_exists.mp hplaced
    simp [Disk.apply, hpart, Placed]
  | look hphase | publish hphase | start hphase | join hphase | shareAgain hphase | add hphase | finish hphase =>
    rw [hphase] at hplaced
    exact hplaced

theorem placed_step (hsize : file.length < 2 ^ 63) {a : Attempt} {action : Download.Action} (h : Sound ssl file a) :
    Placed file (a.step ssl action).1.disk (a.step ssl action).1.download.completed
      (a.step ssl action).1.download.phase := by
  cases action with
  | cancel => exact h.placed
  | main input => exact placed_mainStep hsize h
  | worker k input =>
    by_cases hphase : a.download.phase = .fetching
    · obtain ⟨-, hsame, -, heffect⟩ := @workerStep_frame a.download ssl a.view.file k input
      have hplaced := h.placed
      rw [hphase] at hplaced
      simp only [step, Download.step, hsame, hphase]
      rcases heffect with he | ⟨contents, he⟩ | ⟨piece, he⟩
      · rw [he]
        exact hplaced
      · rw [he]
        rfl
      · rw [he]
        exact hplaced
    · simp only [step, Download.step, workerStep_idle a.view.file k input (h.progress.idle hphase)]
      exact h.placed

theorem Sound.step (hsize : file.length < 2 ^ 63) {a : Attempt} {action : Download.Action} (h : Sound ssl file a) :
    Sound ssl file (a.step ssl action).1 := by
  obtain ⟨-, hprogress⟩ := @Progress.step ssl file a.download a.view action h.progress
  obtain ⟨hopen, hrename⟩ := @step_effect a.download ssl a.view action
  have hsubject : (a.download.step ssl a.view action).1.subject = a.download.subject := step_subject a.view action
  refine ⟨?_, ?_, placed_step hsize h⟩
  · rw [← h.metadata]
    exact congrArg (fun s => s.2.2.2) hsubject
  · by_cases he : (a.download.step ssl a.view action).2 = .openPart
    · obtain ⟨resuming, hphase⟩ := hopen he
      exact hprogress.opened hphase
    · have heq := @opened_apply a.disk _ he hrename
      simp only [Attempt.step, heq]
      exact hprogress

end Sound

section Resume

variable {counted : List Nat}

/-- The disk reads and the other calls of `prepare` succeed. -/
def Succeeds (_ : Attempt) (action : Download.Action) : Prop :=
  action ≠ .main .fail ∧ action ≠ .main (.io .failed)

/-- How far a later attempt has got with keeping what was counted before. -/
def Keeps (file : Bytes) (counted : List Nat) (a : Attempt) : Prop :=
  match a.download.phase with
  | .starting => a.disk.part.isSome ∧ ∀ i ∈ counted, a.download.metadata.Holds file a.disk.opened i
  | .opening resuming | .truncating resuming =>
    resuming = true ∧ a.disk.part.isSome ∧ ∀ i ∈ counted, a.download.metadata.Holds file a.disk.opened i
  | .reading resuming p data =>
    resuming = true ∧ a.disk.opened.length = file.length ∧
      (∀ i ∈ counted, a.download.metadata.Holds file a.disk.opened i) ∧
      (∀ i ∈ counted, i < p → a.download.verified[i]? = some true) ∧
      data = pread a.disk.opened (pieceOffset p) data.length ∧ data.length ≤ a.download.metadata.pieceLength p
  | _ => ∀ i ∈ counted, i ∈ a.download.completed

theorem keeps_of_completed {a : Attempt} (hprepared : a.download.phase.isPrepared = true)
    (h : ∀ i ∈ counted, i ∈ a.download.completed) : Keeps file counted a := by
  unfold Keeps
  cases hphase : a.download.phase with
  | starting | opening | truncating | reading => simp [hphase, Phase.isPrepared] at hprepared
  | _ => exact h

theorem completed_of_keeps {a : Attempt} (hprepared : a.download.phase.isPrepared = true)
    (h : Keeps file counted a) : ∀ i ∈ counted, i ∈ a.download.completed := by
  unfold Keeps at h
  cases hphase : a.download.phase with
  | starting | opening | truncating | reading => simp [hphase, Phase.isPrepared] at hprepared
  | _ =>
    rw [hphase] at h
    exact h

theorem keeps_prepareStep {a : Attempt} {p : Nat} {data : Bytes} {input : Input} (h : Sound ssl file a)
    (hcounted : ∀ i ∈ counted, i < a.download.metadata.pieceCount)
    (hphase : a.download.phase = .reading true p data) (hinput : input ≠ .io .failed) (hkeeps : Keeps file counted a) :
    Keeps file counted ⟨a.download.prepareStep ssl a.disk.opened true p data input, a.disk⟩ := by
  have hd := h.progress.describes
  have hprogress := h.progress.phase
  have hkeeps' := hkeeps
  simp only [Keeps, hphase] at hkeeps
  rw [hphase] at hprogress
  obtain ⟨-, hcount, -⟩ := hprogress
  obtain ⟨-, hsize, hholds, hverified, hdata, hlen⟩ := hkeeps
  unfold Download.prepareStep
  split
  · next hdone =>
    refine fun i hi => mem_kept.mpr (hverified i hi ?_)
    have hlt := hcounted i hi
    simp only [Bool.not_true, Bool.false_or, decide_eq_true_eq] at hdone
    omega
  · next hmore =>
    simp only [Bool.not_true, Bool.false_or, decide_eq_true_eq, not_le] at hmore
    have hp : p < a.download.metadata.pieceCount := hcount ▸ hmore
    split
    · next hall =>
      have hslice : data = a.download.metadata.piece a.disk.opened p := by
        rw [hdata, show data.length = a.download.metadata.pieceLength p by omega]
        rfl
      split
      · refine ⟨rfl, hsize, hholds, fun i hi hlt => ?_, rfl, Nat.zero_le _⟩
        by_cases hip : p = i
        · subst hip
          exact List.getElem?_set_self hmore
        · exact (List.getElem?_set_ne hip).trans (hverified i hi (by omega))
      · next hhash =>
        refine ⟨rfl, hsize, hholds, fun i hi hlt => ?_, rfl, Nat.zero_le _⟩
        by_cases hip : p = i
        · subst hip
          exact absurd (hslice ▸ hd.hash_of_holds hp (hholds p hi)) hhash
        · exact hverified i hi (by omega)
    · next hpart =>
      split
      · next outcome =>
        split
        · next hnone =>
          have hle := hd.piece_le hp
          rw [← hsize] at hle
          obtain ⟨data', hstep⟩ := readStep_of_complete hle (Nat.lt_of_not_le hpart) (by simpa using hinput)
          rw [hstep] at hnone
          simp at hnone
        · next data' hstep =>
          obtain ⟨hlen', hdata'⟩ := readStep_eq_some hlen hdata hstep
          exact ⟨rfl, hsize, hholds, hverified, hdata', hlen'⟩
      · exact hkeeps'

theorem keeps_mainStep {a : Attempt} {input : Input} (hfile : file.length < 2 ^ 63) (h : Sound ssl file a)
    (hcounted : ∀ i ∈ counted, i < a.download.metadata.pieceCount) (hfail : input ≠ .fail)
    (hinput : input ≠ .io .failed) (hkeeps : Keeps file counted a) :
    Keeps file counted (a.step ssl (.main input)).1 := by
  have hsame := hkeeps
  unfold Keeps at hkeeps
  split at hkeeps
  · next hphase =>
    simp only [step, Download.step, Download.mainStep, hphase, Keeps, view, hkeeps.1, ne_eq, hfail, not_false_eq_true,
      decide_true, Bool.and_self, true_and]
    exact hkeeps
  · next resuming hphase =>
    obtain ⟨rfl, hpart, hholds⟩ := hkeeps
    simp only [step, Download.step, Download.mainStep, hphase, Keeps, hfail, if_false, true_and]
    refine ⟨rfl, fun i hi => ?_⟩
    have hopened : (a.disk.apply .openPart).opened = a.disk.opened := by
      obtain ⟨contents, hcontents⟩ := Option.isSome_iff_exists.mp hpart
      simp [Disk.apply, Disk.opened, hcontents]
    rw [hopened]
    exact hholds i hi
  · next resuming hphase =>
    obtain ⟨rfl, hpart, hholds⟩ := hkeeps
    have hsize := h.progress.describes.size
    have hfits : ¬(decide (input = .fail) || decide (2 ^ 63 ≤ a.download.metadata.size.toNat)) = true := by
      intro hor
      rcases (Bool.or_eq_true _ _).mp hor with hor | hor
      · exact hfail (of_decide_eq_true hor)
      · have := of_decide_eq_true hor
        omega
    simp only [step, Download.step, Download.mainStep, hphase]
    rw [if_neg hfits, ← hsize]
    have htoward := toward_ftruncate file a.disk.opened
    refine ⟨rfl, ?_, fun i hi => ?_, fun i hi hlt => absurd hlt (Nat.not_lt_zero i), rfl, Nat.zero_le _⟩
    · simp only [Disk.apply, Disk.opened, Option.some_or, Option.getD_some, view]
      rw [ftruncate, List.length_append, List.length_take, List.length_replicate]
      omega
    · exact htoward.agreesOn (hholds i hi)
  · next resuming p data hphase =>
    obtain ⟨rfl, -⟩ := hkeeps
    simp only [step, Download.step, Download.mainStep, hphase]
    exact keeps_prepareStep h hcounted hphase hinput hsame
  · next h₁ h₂ h₃ h₄ =>
    have hprepared : a.download.phase.isPrepared = true := by
      cases hphase : a.download.phase with
      | starting => exact absurd hphase h₁
      | opening resuming => exact absurd hphase (h₂ resuming)
      | truncating resuming => exact absurd hphase (h₃ resuming)
      | reading resuming p data => exact absurd hphase (h₄ resuming p data)
      | _ => rfl
    obtain ⟨hnext, hcompleted⟩ := @mainStep_prepared a.download ssl a.view input hprepared
    refine keeps_of_completed hnext ?_
    simp only [step, Download.step, hcompleted]
    exact hkeeps

theorem keeps_step {a : Attempt} {action : Download.Action} (hfile : file.length < 2 ^ 63) (h : Sound ssl file a)
    (hcounted : ∀ i ∈ counted, i < a.download.metadata.pieceCount) (hsucceeds : Succeeds a action)
    (hkeeps : Keeps file counted a) : Keeps file counted (a.step ssl action).1 := by
  cases action with
  | cancel => exact hkeeps
  | main input => exact keeps_mainStep hfile h hcounted (by simpa using hsucceeds.1) (by simpa using hsucceeds.2) hkeeps
  | worker k input =>
    by_cases hphase : a.download.phase = .fetching
    · obtain ⟨-, hsame, hmono, -⟩ := @workerStep_frame a.download ssl a.view.file k input
      refine keeps_of_completed ?_ (fun i hi => hmono i (completed_of_keeps ?_ hkeeps i hi))
      · simp only [step, Download.step, hsame, hphase, Phase.isPrepared]
      · rw [hphase]
        rfl
    · simp only [step, Download.step, workerStep_idle a.view.file k input (h.progress.idle hphase)]
      exact hkeeps

end Resume

theorem sound_create (hsize : file.length < 2 ^ 63) (hunique : UniquePieces ssl file) {group name destination : Bytes}
    {seeders : List SeederAccess} (hne : seeders ≠ []) (disk : Disk) :
    Sound ssl file ⟨create group name destination (hash ssl file) seeders, disk⟩ :=
  ⟨rfl, create_progress (describes_hash hsize hunique) hne, rfl⟩

theorem Sound.part_eq {a : Attempt} (h : Sound ssl file a) (hphase : a.download.phase.isCompleting = true) :
    a.disk.part = some file := by
  have hplaced := h.placed
  have hprogress := h.progress.phase
  cases hp : a.download.phase with
  | checking | moving =>
    rw [hp] at hplaced hprogress
    rw [opened_of_part hplaced]
    exact congrArg some hprogress
  | hashing data =>
    rw [hp] at hplaced hprogress
    rw [opened_of_part hplaced.1]
    exact congrArg some hprogress
  | _ => simp [hp, Phase.isCompleting] at hphase

theorem Sound.destination_eq {a : Attempt} (h : Sound ssl file a) (hphase : a.download.phase.isMoved = true) :
    a.disk.destination = some file := by
  have hplaced := h.placed
  have hprogress := h.progress.phase
  have hmoved : ∀ contents, a.disk.part = none ∧ a.disk.destination.isSome → a.disk.opened = contents →
      a.disk.destination = some contents := by
    rintro contents ⟨hnone, hsome⟩ rfl
    obtain ⟨c, hc⟩ := Option.isSome_iff_exists.mp hsome
    simp [Disk.opened, hnone, hc]
  cases hp : a.download.phase with
  | sharingAgain | adding | finishing =>
    rw [hp] at hplaced hprogress
    exact hmoved file hplaced hprogress
  | finished failure =>
    cases failure with
    | none =>
      rw [hp] at hplaced hprogress
      exact hmoved file hplaced hprogress
    | some reason => simp [hp, Phase.isMoved] at hphase
  | _ => simp [hp, Phase.isMoved] at hphase

/-- Every piece counted is in the `.part` file, as long as that has not been moved. -/
theorem Sound.counted {a : Attempt} (h : Sound ssl file a) (hphase : a.download.phase.isMoved = false) :
    ∀ i ∈ a.download.completed, ∃ contents, a.disk.part = some contents ∧
      (hash ssl file).piece contents i = (hash ssl file).piece file i := by
  intro i hi
  have hpart : a.disk.part.isSome := by
    have hplaced := h.placed
    cases hp : a.download.phase with
    | starting | opening =>
      rw [hp] at hplaced
      rw [show a.download.completed = [] from hplaced] at hi
      simp at hi
    | hashing data =>
      rw [hp] at hplaced
      exact hplaced.1
    | finished failure =>
      rw [hp] at hplaced
      cases failure with
      | none => simp [hp, Phase.isMoved] at hphase
      | some reason => exact hplaced.2 (List.ne_nil_of_mem hi)
    | sharingAgain | adding | finishing => simp [hp, Phase.isMoved] at hphase
    | _ =>
      rw [hp] at hplaced
      exact hplaced
  have hholds := (h.progress.completed i hi).2
  rw [h.metadata] at hholds
  exact ⟨_, opened_of_part hpart, holds_iff.mp hholds⟩

/-- Whatever was counted when an attempt failed, the next one finds again. -/
theorem Sound.resume {a : Attempt} (hsize : file.length < 2 ^ 63) (h : Sound ssl file a) {reason : Bytes}
    (hphase : a.download.phase = .finished (some reason)) {seeders : List SeederAccess} (hne : seeders ≠ [])
    {actions : List Download.Action} (hsucceeds : Machine.Along (Attempt.step ssl) Succeeds (a.again seeders) actions)
    (hprepared : (Machine.run (Attempt.step ssl) (a.again seeders) actions).download.phase.isPrepared = true) :
    ∀ i ∈ a.download.completed, i ∈ (Machine.run (Attempt.step ssl) (a.again seeders) actions).download.completed := by
  intro i hi
  have hplaced := h.placed
  rw [hphase] at hplaced
  have hstart : Sound ssl file (a.again seeders) ∧ Keeps file a.download.completed (a.again seeders) :=
    ⟨⟨h.metadata, create_progress h.progress.describes hne, rfl⟩, hplaced.2 (List.ne_nil_of_mem hi),
      fun j hj => (h.progress.completed j hj).2⟩
  have hcounted : ∀ j ∈ a.download.completed, j < (hash ssl file).pieceCount := by
    rw [← h.metadata]
    exact fun j hj => (h.progress.completed j hj).1
  have hend := Machine.invariant_along (P := fun b => Sound ssl file b ∧ Keeps file a.download.completed b) hstart
    (fun b action hb hok => ⟨hb.1.step hsize, keeps_step hsize hb.1 (by rw [hb.1.metadata]; exact hcounted) hok hb.2⟩)
    hsucceeds
  exact completed_of_keeps hprepared hend.2 i hi

/-- Along every run of a download of `file` the pieces it has counted are in place; `complete` finds the whole file
and puts it at the destination; and what an unsuccessful run has counted, the next one keeps. -/
theorem reconstruct_and_resume (ssl : OpenSsl) (file : Bytes) (hsize : file.length < 2 ^ 63)
    (hunique : UniquePieces ssl file) (group name destination : Bytes) (seeders : List SeederAccess)
    (hne : seeders ≠ []) (disk : Disk) (actions : List Download.Action) :
    let a := Machine.run (step ssl) ⟨create group name destination (hash ssl file) seeders, disk⟩ actions
    (a.download.phase.isMoved = false → ∀ i ∈ a.download.completed, ∃ contents, a.disk.part = some contents ∧
      (hash ssl file).piece contents i = (hash ssl file).piece file i) ∧
    (a.download.phase.isCompleting = true → a.disk.part = some file) ∧
    a.download.phase ≠ .finished (some integrityCheckFailed) ∧
    (a.download.phase.isMoved = true → a.disk.destination = some file) ∧
    ∀ reason, a.download.phase = .finished (some reason) → ∀ seeders' : List SeederAccess, seeders' ≠ [] →
      ∀ actions', Machine.Along (step ssl) Succeeds (a.again seeders') actions' →
        (Machine.run (step ssl) (a.again seeders') actions').download.phase.isPrepared = true →
        ∀ i ∈ a.download.completed, i ∈ (Machine.run (step ssl) (a.again seeders') actions').download.completed := by
  intro a
  have h : Sound ssl file a := by
    have hreach : Machine.Reachable (step ssl) ⟨create group name destination (hash ssl file) seeders, disk⟩ a :=
      ⟨actions, rfl⟩
    exact Machine.invariant (sound_create hsize hunique hne disk) (fun b action hb => hb.step hsize) hreach
  refine ⟨h.counted, h.part_eq, fun hphase => ?_, h.destination_eq, ?_⟩
  · have hplaced := h.placed
    rw [hphase] at hplaced
    exact hplaced.1 rfl
  · intro reason hphase seeders' hne' actions' hsucceeds hprepared
    exact h.resume hsize hphase hne' hsucceeds hprepared

section Example

def helloRecording : Recording where
  sha1 := [(lit "hello", ofHex 20 0xaaf4c61ddcc5e8a2dabede0f3b482cd9aea9434d)]

/-- The one piece of a recorded file has a digest of its own. -/
theorem uniquePieces_replay {r : Recording} {file : Bytes} (hcount : (hash r.replay file).pieceCount = 1)
    (hpiece : (hash r.replay file).piece file 0 = file) (hdigest : r.replay.SHA1 file ≠ List.replicate 20 0)
    (honly : ∀ entry ∈ r.sha1, entry.2 = r.replay.SHA1 file → entry.1 = file) : UniquePieces r.replay file := by
  intro i hi data hsame
  obtain rfl : i = 0 := by omega
  rw [hpiece] at hsame ⊢
  have hequal : r.replay.SHA1 data = r.replay.SHA1 file := by
    have hhex := congrArg fromHex hsame
    rwa [sha1Hex, sha1Hex, fromHex_toHex, fromHex_toHex, Option.some.injEq] at hhex
  exact honly _ (Recording.of_sha1 (by rw [hequal]; exact hdigest)) hequal

theorem uniquePieces_hello : UniquePieces helloRecording.replay (lit "hello") :=
  uniquePieces_replay (by decide +kernel) (by decide +kernel) (by decide +kernel) (by decide +kernel)

def seederOfHello : SeederAccess :=
  ⟨⟨lit "10.0.0.1", 6881⟩, lit "626f62.67.66.1300", ofHex 32 1⟩

/-- The one piece of the file arrives and is counted, then the user cancels. -/
def cancelledHello : List Download.Action :=
  List.replicate 4 (.main .ok) ++ [.main (.reply 1000 none (.success, [1]))] ++ List.replicate 3 (.main .ok) ++
    List.replicate 3 (.worker 0 .ok) ++ [.worker 0 (.reply 1001 none (.success, lit "hello"))] ++
    [.worker 0 (.io (.upTo 1)), .worker 0 (.io (.upTo 9))] ++ List.replicate 2 (.worker 0 .ok) ++ [.cancel] ++
    List.replicate 2 (.worker 0 .ok) ++ [.main .ok]

/-- The second attempt reads the piece back in two rounds. -/
def resumedHello : List Download.Action :=
  List.replicate 3 (.main .ok) ++ [.main (.io (.upTo 2)), .main (.io (.upTo 9))] ++ List.replicate 2 (.main .ok)

def cancelledAttempt : Attempt := Machine.run (step helloRecording.replay)
  ⟨create (lit "g") (lit "f") (lit "out") (hash helloRecording.replay (lit "hello")) [seederOfHello], ⟨none, none⟩⟩
  cancelledHello

def resumedAttempt : Attempt :=
  Machine.run (step helloRecording.replay) (cancelledAttempt.again [seederOfHello]) resumedHello

theorem reconstruct_and_resume_hello :
    (∃ contents, cancelledAttempt.disk.part = some contents ∧ contents.take 5 = lit "hello") ∧
      0 ∈ resumedAttempt.download.completed := by
  have hcounted : cancelledAttempt.download.completed = [0] := by decide +kernel
  have hmember : 0 ∈ cancelledAttempt.download.completed := by rw [hcounted]; simp
  have hphase : cancelledAttempt.download.phase = .finished (some cancelledByUser) := by decide +kernel
  obtain ⟨hplace, -, -, -, hresume⟩ := reconstruct_and_resume helloRecording.replay (lit "hello") (by decide)
    uniquePieces_hello (lit "g") (lit "f") (lit "out") [seederOfHello] (by simp) ⟨none, none⟩ cancelledHello
  constructor
  · have hunmoved : cancelledAttempt.download.phase.isMoved = false := by rw [hphase]; rfl
    obtain ⟨contents, hpart, hpiece⟩ := hplace hunmoved 0 hmember
    have hlen : (hash helloRecording.replay (lit "hello")).pieceLength 0 = 5 := by decide +kernel
    have hfile : (hash helloRecording.replay (lit "hello")).piece (lit "hello") 0 = lit "hello" := by decide +kernel
    have hcut : (hash helloRecording.replay (lit "hello")).piece contents 0 = contents.take 5 := by
      rw [piece, hlen, pread, pieceOffset, Nat.zero_mul, List.drop_zero]
    exact ⟨contents, hpart, hcut.symm.trans (hpiece.trans hfile)⟩
  · have hsucceeds : Machine.Along (step helloRecording.replay) Succeeds (cancelledAttempt.again [seederOfHello])
        resumedHello := Machine.along_of_forall (by simp [resumedHello, Succeeds])
    have hprepared : resumedAttempt.download.phase.isPrepared = true := by decide +kernel
    exact hresume cancelledByUser hphase [seederOfHello] (by simp) resumedHello hsucceeds hprepared 0 hmember

end Example

end Attempt

end TorrentAtlas
