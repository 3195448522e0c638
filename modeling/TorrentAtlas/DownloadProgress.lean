import TorrentAtlas.Download

/-!
# Progress of a download

Metadata `Describes` a file when its hashes are those of the file's pieces and no
other data has them. `Progress` relates a running download to the contents of its
`.part` file: every piece it has counted is in place. It survives whatever brings
the file closer to the described one, so it holds over any interleaving of writers
of the same file.
-/
namespace TorrentAtlas

open Encoding Crypto PieceFile

namespace FileMetadata

/-- Piece `i` of the described file is in place in `contents`. -/
def Holds (m : FileMetadata) (file contents : Bytes) (i : Nat) : Prop :=
  AgreesOn file contents (pieceOffset i) (pieceOffset i + m.pieceLength i)

/-- The metadata is that of `file`, and SHA-1 tells each piece from all other data. -/
structure Describes (ssl : OpenSsl) (m : FileMetadata) (file : Bytes) : Prop where
  count : m.pieceCount = (pieceCountForSize m.size).toNat
  size : file.length = m.size.toNat
  hash : ∀ i < m.pieceCount, ∀ data, sha1Hex ssl data = m.pieceHashes.getD i [] ↔ data = m.piece file i

variable {ssl : OpenSsl} {m : FileMetadata} {file contents : Bytes} {i : Nat}

theorem holds_iff : m.Holds file contents i ↔ m.piece contents i = m.piece file i := AgreesOn.iff_slice

/-- A piece that exists lies within the file. -/
theorem Describes.piece_le (h : Describes ssl m file) (hi : i < m.pieceCount) :
    pieceOffset i + m.pieceLength i ≤ file.length := by
  rw [h.size, pieceOffset]
  exact piece_end_le h.count hi

theorem Describes.length_piece (h : Describes ssl m file) (hi : i < m.pieceCount) :
    (m.piece file i).length = m.pieceLength i := by
  have hle := h.piece_le hi
  rw [piece, length_pread]
  omega

/-- Every byte of the file is in a piece. -/
theorem Describes.exists_piece (h : Describes ssl m file) {j : Nat} (hj : j < file.length) :
    ∃ i < m.pieceCount, pieceOffset i ≤ j ∧ j < pieceOffset i + m.pieceLength i := by
  rw [h.size] at hj
  obtain ⟨i, hi, hge, hlt⟩ := (lt_size_iff h.count).mp hj
  rw [← pieceOffset] at hge hlt
  exact ⟨i, hi, hge, hlt⟩

/-- With nothing past its end, a file that has every piece in place is the described file. -/
theorem Describes.eq_of_holds (h : Describes ssl m file) (hend : ∀ j, file.length ≤ j → AgreesAt file contents j)
    (hall : ∀ i < m.pieceCount, m.Holds file contents i) : contents = file := by
  refine eq_of_agreesAt fun j => ?_
  by_cases hj : j < file.length
  · obtain ⟨i, hi, hlo, hhi⟩ := h.exists_piece hj
    exact hall i hi j hlo hhi
  · exact hend j (by omega)

/-- A slice with the hash of its piece is in place. -/
theorem Describes.holds_of_hash (h : Describes ssl m file) (hi : i < m.pieceCount)
    (hhash : sha1Hex ssl (m.piece contents i) = m.pieceHashes.getD i []) : m.Holds file contents i :=
  holds_iff.mpr ((h.hash i hi _).mp hhash)

theorem Describes.hash_of_holds (h : Describes ssl m file) (hi : i < m.pieceCount) (hholds : m.Holds file contents i) :
    sha1Hex ssl (m.piece contents i) = m.pieceHashes.getD i [] := by
  rw [holds_iff.mp hholds]
  exact (h.hash i hi _).mpr rfl

end FileMetadata

namespace Download

open FileMetadata

/-- The piece a worker is at. -/
def Worker.piece : Worker → Option Nat
  | .attempting piece _ | .requesting piece _ _ | .writing piece _ _ _ | .written piece | .counted piece
  | .returned piece | .recording piece => some piece
  | .looping | .claiming | .stopped => none

/-- What is in place in `contents` while a worker of `d` stands at `w`. -/
def WorkerOk (file : Bytes) (d : Download) (contents : Bytes) (w : Worker) : Prop :=
  (∀ i, w.piece = some i → i < d.metadata.pieceCount) ∧
  match w with
  | .writing i _ data done => data = d.metadata.piece file i ∧ done ≤ data.length ∧
      AgreesOn file contents (pieceOffset i) (pieceOffset i + done)
  | .written i => d.metadata.Holds file contents i
  | .counted i => d.metadata.Holds file contents i ∧ i ∈ d.completed
  | .stopped => d.cancelled = false → d.order.length ≤ d.next
  | _ => True

/-- What `prepare` and the workers owe to each other: no missing piece is forgotten. -/
structure Covered (d : Download) : Prop where
  missing : ∀ i < d.metadata.pieceCount, i ∈ d.completed ∨ i ∈ d.order
  order : ∀ i ∈ d.order, i < d.metadata.pieceCount
  claimed : d.cancelled = false → d.pieceFailed = false → ∀ p < d.next, ∀ i, d.order[p]? = some i →
    i ∈ d.completed ∨ ∃ w ∈ d.workers, w.piece = some i
  manned : d.order ≠ [] → d.workers ≠ []

/-- What is in place in `contents` in each phase. -/
def PhaseOk (file : Bytes) (d : Download) (contents : Bytes) : Phase → Prop
  | .starting | .opening _ | .truncating _ => d.completed = []
  | .reading _ i data => d.completed = [] ∧ d.verified.length = d.metadata.pieceCount ∧
      (∀ j, file.length ≤ j → AgreesAt file contents j) ∧
      (∀ j, d.verified[j]? = some true → d.metadata.Holds file contents j) ∧ data.length ≤ d.metadata.pieceLength i ∧
      ∀ k < data.length, data[k]? = file[pieceOffset i + k]? → AgreesAt file contents (pieceOffset i + k)
  | .asking _ | .publishing | .sharing => d.verified.length = d.metadata.pieceCount ∧
      (∀ j, file.length ≤ j → AgreesAt file contents j) ∧ (∀ j, d.verified[j]? = some true → j ∈ d.completed)
  | .fetching => (∀ j, file.length ≤ j → AgreesAt file contents j) ∧ d.Covered
  | .finished (some _) => True
  | _ => contents = file

/-- A download and the contents of its `.part` file. -/
structure Progress (ssl : OpenSsl) (file : Bytes) (d : Download) (contents : Bytes) : Prop where
  describes : Describes ssl d.metadata file
  seeders : d.seeders ≠ []
  completed : ∀ i ∈ d.completed, i < d.metadata.pieceCount ∧ d.metadata.Holds file contents i
  workers : ∀ w ∈ d.workers, WorkerOk file d contents w
  idle : d.phase ≠ .fetching → ∀ w ∈ d.workers, w = .stopped
  phase : PhaseOk file d contents d.phase

variable {ssl : OpenSsl} {file contents contents' : Bytes} {d : Download}

theorem WorkerOk.toward {w : Worker} (h : WorkerOk file d contents w) (htoward : Toward file contents contents') :
    WorkerOk file d contents' w := by
  refine ⟨h.1, ?_⟩
  have hw := h.2
  cases w with
  | writing i attempt data done => exact ⟨hw.1, hw.2.1, htoward.agreesOn hw.2.2⟩
  | written i => exact htoward.agreesOn hw
  | counted i => exact ⟨htoward.agreesOn hw.1, hw.2⟩
  | _ => exact hw

theorem PhaseOk.toward {phase : Phase} (h : PhaseOk file d contents phase) (htoward : Toward file contents contents') :
    PhaseOk file d contents' phase := by
  cases phase with
  | reading resuming i data =>
    obtain ⟨hnone, hcount, hend, hverified, hlen, hdata⟩ := h
    exact ⟨hnone, hcount, fun j hj => htoward j (hend j hj), fun j hj => htoward.agreesOn (hverified j hj), hlen,
      fun k hk he => htoward _ (hdata k hk he)⟩
  | asking | publishing | sharing => exact ⟨h.1, fun j hj => htoward j (h.2.1 j hj), h.2.2⟩
  | fetching => exact ⟨fun j hj => htoward j (h.1 j hj), h.2⟩
  | starting | opening | truncating => exact h
  | finished failure =>
    cases failure with
    | none =>
      obtain rfl : contents = file := h
      exact eq_of_agreesAt fun j => htoward j rfl
    | some reason => exact h
  | checking | hashing | moving | sharingAgain | adding | finishing =>
    obtain rfl : contents = file := h
    exact eq_of_agreesAt fun j => htoward j rfl

/-- Whatever brings the file closer to the described one keeps the progress made. -/
theorem Progress.toward (h : Progress ssl file d contents) (htoward : Toward file contents contents') :
    Progress ssl file d contents' where
  describes := h.describes
  seeders := h.seeders
  completed i hi := ⟨(h.completed i hi).1, htoward.agreesOn (h.completed i hi).2⟩
  workers w hw := (h.workers w hw).toward htoward
  idle := h.idle
  phase := h.phase.toward htoward

/-- What a step may do outside when the file has these contents. -/
def EffectOk (file : Bytes) (d : Download) (contents : Bytes) : Effect → Prop
  | .write contents' => Toward file contents contents'
  | .markAvailable i => i < d.metadata.pieceCount ∧ d.metadata.Holds file contents i
  | .add entry => entry.metadata = d.metadata ∧ ∀ i, entry.available[i]? = some true →
      i < d.metadata.pieceCount ∧ d.metadata.Holds file contents i
  | .rename => contents = file
  | _ => True

/-- The contents of the open file after an effect. -/
def Effect.after (before : Bytes) : Effect → Bytes
  | .write after => after
  | _ => before

section Main

theorem PhaseOk.withPhase {phase phase' : Phase} (h : PhaseOk file d contents phase) :
    PhaseOk file { d with phase := phase' } contents phase := by
  cases phase with
  | fetching => exact ⟨h.1, h.2.missing, h.2.order, h.2.claimed, h.2.manned⟩
  | finished failure => cases failure <;> exact h
  | _ => exact h

theorem Progress.enter {phase : Phase} (h : Progress ssl file d contents) (hidle : ∀ w ∈ d.workers, w = .stopped)
    (hok : PhaseOk file d contents phase) : Progress ssl file { d with phase } contents :=
  ⟨h.describes, h.seeders, h.completed, h.workers, fun _ => hidle, hok.withPhase⟩

theorem seederAt_ne_nil {index : Nat} {now : Int} {located : Option (List SeederAccess)} (h : d.seeders ≠ []) :
    d.seederAt index now located ≠ [] := by
  unfold seederAt
  split
  · split
    · simpa using h
    · exact h
  · exact h

theorem mem_kept {i : Nat} : i ∈ d.kept ↔ d.verified[i]? = some true := by
  simp only [kept, List.mem_filter, List.mem_range, List.getD_eq_getElem?_getD]
  constructor
  · rintro ⟨hlt, hget⟩
    rw [List.getElem?_eq_getElem hlt] at *
    simpa using hget
  · intro hget
    exact ⟨(List.getElem?_eq_some_iff.mp hget).1, by simp [hget]⟩

theorem mem_rarestFirst {i : Nat} : i ∈ d.rarestFirst ↔ d.verified[i]? = some false := by
  rw [rarestFirst, (List.perm_insertionSort _ _).mem_iff]
  simp only [List.mem_filter, List.mem_range, List.getD_eq_getElem?_getD]
  constructor
  · rintro ⟨hlt, hget⟩
    rw [List.getElem?_eq_getElem hlt] at *
    simpa using hget
  · intro hget
    exact ⟨(List.getElem?_eq_some_iff.mp hget).1, by simp [hget]⟩

/-- The bytes a round of `read` returns are those read before or those of the file now. -/
theorem getElem?_readStep {index length : Nat} {data data' : Bytes} {io : Transfer} (hlen : data.length ≤ length)
    (h : readStep contents index length data io = some data') : data'.length ≤ length ∧ ∀ k < data'.length,
      k < data.length ∧ data'[k]? = data[k]? ∨ data'[k]? = contents[pieceOffset index + k]? := by
  cases io with
  | interrupted =>
    obtain rfl : data = data' := by simpa [readStep] using h
    exact ⟨hlen, fun k hk => Or.inl ⟨hk, rfl⟩⟩
  | failed => simp [readStep] at h
  | upTo n =>
    simp only [readStep] at h
    split at h
    · simp at h
    · obtain rfl := Option.some.inj h
      have hcount := length_pread contents (pieceOffset index + data.length) (min (n + 1) (length - data.length))
      refine ⟨by rw [List.length_append]; omega, fun k hk => ?_⟩
      rw [List.length_append] at hk
      by_cases hold : k < data.length
      · exact Or.inl ⟨hold, List.getElem?_append_left hold⟩
      · refine Or.inr ?_
        rw [List.getElem?_append_right (by omega), pread, List.getElem?_take, if_pos (by omega), List.getElem?_drop,
          show pieceOffset index + data.length + (k - data.length) = pieceOffset index + k by omega]

/-- Data with the hash of its piece, wherever it differs from the file now, is in place. -/
theorem holds_of_read (hd : Describes ssl d.metadata file) {i : Nat} {data : Bytes} (hi : i < d.metadata.pieceCount)
    (hhash : sha1Hex ssl data = d.pieceHash i)
    (hdata : ∀ k < data.length, data[k]? = file[pieceOffset i + k]? → AgreesAt file contents (pieceOffset i + k)) :
    d.metadata.Holds file contents i := by
  have hpiece : data = d.metadata.piece file i := (hd.hash i hi data).mp hhash
  have hlen : data.length = d.metadata.pieceLength i := by rw [hpiece, hd.length_piece hi]
  intro j hlo hhi
  have hk := hdata (j - pieceOffset i) (by omega)
  rw [Nat.add_sub_cancel' hlo] at hk
  refine hk ?_
  rw [hpiece, piece, pread, List.getElem?_take, if_pos (by omega), List.getElem?_drop, Nat.add_sub_cancel' hlo]

theorem Progress.prepareStep {resuming : Bool} {i : Nat} {data : Bytes} {input : Input}
    (h : Progress ssl file d contents) (hphase : d.phase = .reading resuming i data) :
    Progress ssl file (d.prepareStep ssl contents resuming i data input) contents := by
  have hidle := h.idle (by simp [hphase])
  have hok := h.phase
  rw [hphase] at hok
  obtain ⟨hnone, hcount, hend, hverified, hlen, hdata⟩ := hok
  have hnext : Progress ssl file { d with phase := .reading resuming (i + 1) [] } contents :=
    h.enter hidle ⟨hnone, hcount, hend, hverified, Nat.zero_le _, fun k hk => by simp at hk⟩
  unfold Download.prepareStep
  split
  · refine ⟨h.describes, h.seeders, fun j hj => ?_, fun w hw => ?_, fun _ => hidle, hcount, hend, fun j hj => ?_⟩
    · have hj' := mem_kept.mp hj
      exact ⟨hcount ▸ (List.getElem?_eq_some_iff.mp hj').1, hverified j hj'⟩
    · have hold := h.workers w hw
      obtain rfl := hidle w hw
      exact hold
    · exact mem_kept.mpr hj
  · next hmore =>
    simp only [Bool.or_eq_true, decide_eq_true_eq, not_or, not_le] at hmore
    split
    · split
      · next hhash =>
        refine ⟨h.describes, h.seeders, h.completed, h.workers, fun _ => hidle, hnone, by simpa using hcount, hend,
          fun j hj => ?_, Nat.zero_le _, fun k hk => by simp at hk⟩
        by_cases hji : i = j
        · subst hji
          exact holds_of_read h.describes (hcount ▸ hmore.2) hhash hdata
        · rw [List.getElem?_set_ne hji] at hj
          exact hverified j hj
      · exact hnext
    · split
      · split
        · exact hnext
        · next data' hstep =>
          obtain ⟨hlen', hbytes⟩ := getElem?_readStep hlen hstep
          refine h.enter hidle ⟨hnone, hcount, hend, hverified, hlen', fun k hk hsame => ?_⟩
          rcases hbytes k hk with ⟨hold, hget⟩ | hget
          · exact hdata k hold (hget.symm.trans hsame)
          · exact hget.symm.trans hsame
      · exact h

theorem Progress.bitmapStep {seeder : Nat} {input : Input} (h : Progress ssl file d contents)
    (hphase : d.phase = .asking seeder) : Progress ssl file (d.bitmapStep seeder input) contents := by
  have hidle := h.idle (by simp [hphase])
  have hok := h.phase
  rw [hphase] at hok
  unfold Download.bitmapStep
  split
  · exact h.enter hidle hok
  · split
    · dsimp only
      split
      · exact ⟨h.describes, seederAt_ne_nil h.seeders, h.completed, h.workers, fun _ => hidle, hok⟩
      · exact ⟨h.describes, seederAt_ne_nil h.seeders, h.completed, h.workers, fun _ => hidle, hok⟩
    · exact h

/-- When the workers have stopped, uncancelled and without a failure, every piece is in place. -/
theorem Progress.join (h : Progress ssl file d contents) (hphase : d.phase = .fetching)
    (hstopped : ∀ w ∈ d.workers, w = .stopped) (hcancelled : d.cancelled = false) (hfailed : d.pieceFailed = false) :
    contents = file := by
  have hok := h.phase
  rw [hphase] at hok
  obtain ⟨hend, hcovered⟩ := hok
  have hall : d.order.length ≤ d.next := by
    by_cases hnil : d.order = []
    · simp [hnil]
    · obtain ⟨w, hw⟩ := List.exists_mem_of_ne_nil _ (hcovered.manned hnil)
      have hwok := h.workers w hw
      obtain rfl := hstopped w hw
      exact hwok.2 hcancelled
  refine h.describes.eq_of_holds hend fun i hi => ?_
  rcases hcovered.missing i hi with hi | hi
  · exact (h.completed i hi).2
  · obtain ⟨p, hp⟩ := List.mem_iff_getElem?.mp hi
    have hlt := (List.getElem?_eq_some_iff.mp hp).1
    rcases hcovered.claimed hcancelled hfailed p (by omega) i hp with hi | ⟨w, hw, hpiece⟩
    · exact (h.completed i hi).2
    · rw [hstopped w hw] at hpiece
      simp [Worker.piece] at hpiece

theorem Progress.start (h : Progress ssl file d contents) (hphase : d.phase = .sharing) :
    Progress ssl file
      { d with
        phase := .fetching
        order := d.rarestFirst
        next := 0
        pieceFailed := false
        workers := List.replicate (d.threadCount d.rarestFirst) .looping } contents := by
  have hok := h.phase
  rw [hphase] at hok
  obtain ⟨hcount, hend, hverified⟩ := hok
  refine ⟨h.describes, h.seeders, h.completed, fun w hw => ?_, by simp, hend, fun i hi => ?_, fun i hi => ?_,
    by simp, fun hne => ?_⟩
  · rw [List.eq_of_mem_replicate hw]
    exact ⟨by simp [Worker.piece], trivial⟩
  · rw [← hcount] at hi
    cases hv : d.verified[i] with
    | true => exact Or.inl (hverified i (by rw [List.getElem?_eq_getElem hi, hv]))
    | false => exact Or.inr (mem_rarestFirst.mpr (by rw [List.getElem?_eq_getElem hi, hv]))
  · have hi' := mem_rarestFirst.mp hi
    exact hcount ▸ (List.getElem?_eq_some_iff.mp hi').1
  · have hseeders := List.length_pos_iff.mpr h.seeders
    have horder : 0 < d.rarestFirst.length := List.length_pos_iff.mpr hne
    simp only [ne_eq, List.replicate_eq_nil_iff, threadCount, MAX_THREADS]
    omega

theorem Progress.truncate (h : Progress ssl file d contents) {resuming : Bool}
    (hphase : d.phase = .truncating resuming) :
    Progress ssl file
      { d with phase := .reading resuming 0 [], verified := List.replicate d.metadata.pieceCount false }
      (ftruncate contents d.metadata.size.toNat) := by
  rw [← h.describes.size]
  have h' := h.toward (toward_ftruncate file contents)
  have hok := h'.phase
  rw [hphase] at hok
  refine ⟨h'.describes, h'.seeders, h'.completed, h'.workers, fun _ => h.idle (by simp [hphase]), hok, by simp,
    fun j hj => ?_, fun j hj => ?_, Nat.zero_le _, fun k hk => by simp at hk⟩
  · unfold AgreesAt
    rw [getElem?_ftruncate, if_neg (by omega), List.getElem?_eq_none hj]
  · rw [List.getElem?_replicate] at hj
    split at hj <;> simp at hj

theorem Progress.mainStep {view : View} {input : Input} (h : Progress ssl file d view.file) :
    EffectOk file d view.file (d.mainStep ssl view input).2 ∧
      Progress ssl file (d.mainStep ssl view input).1 ((d.mainStep ssl view input).2.after view.file) := by
  have hok := h.phase
  have hmove : ∀ phase, d.phase ≠ .fetching → PhaseOk file d view.file phase →
      Progress ssl file { d with phase } view.file := fun phase hne hp => h.enter (h.idle hne) hp
  have hfail : ∀ reason, d.phase ≠ .fetching → Progress ssl file (d.finish (some reason)) view.file :=
    fun reason hne => hmove _ hne trivial
  have hcases := mainStep_cases ssl d view input
  generalize d.mainStep ssl view input = result at hcases ⊢
  cases hcases with
  | stay => exact ⟨trivial, h⟩
  | look hphase =>
    rw [hphase] at hok
    exact ⟨trivial, hmove _ (by simp [hphase]) hok⟩
  | notOpened hphase => exact ⟨trivial, hfail _ (by simp [hphase])⟩
  | opened hphase =>
    rw [hphase] at hok
    exact ⟨trivial, hmove _ (by simp [hphase]) hok⟩
  | notTruncated hphase => exact ⟨trivial, hfail _ (by simp [hphase])⟩
  | truncated hphase =>
    refine ⟨?_, h.truncate hphase⟩
    change Toward _ _ _
    rw [← h.describes.size]
    exact toward_ftruncate file view.file
  | prepare hphase => exact ⟨trivial, h.prepareStep hphase⟩
  | bitmap hphase => exact ⟨trivial, h.bitmapStep hphase⟩
  | publish hphase =>
    rw [hphase] at hok
    exact ⟨⟨rfl, fun i hi => h.completed i (hok.2.2 i hi)⟩, hmove _ (by simp [hphase]) hok⟩
  | start hphase => exact ⟨trivial, h.start hphase⟩
  | giveUp hphase hstopped => exact ⟨trivial, h.enter hstopped trivial⟩
  | join hphase hstopped hcancelled hfailed =>
    exact ⟨trivial, h.enter hstopped (h.join hphase hstopped hcancelled hfailed)⟩
  | notChecked hphase | notHashed hphase | mismatch hphase | notMoved hphase =>
    exact ⟨trivial, hfail _ (by simp [hphase])⟩
  | check hphase | hashOn hphase | accept hphase | shareAgain hphase | finish hphase =>
    rw [hphase] at hok
    exact ⟨trivial, hmove _ (by simp [hphase]) hok⟩
  | move hphase =>
    rw [hphase] at hok
    exact ⟨hok, hmove _ (by simp [hphase]) hok⟩
  | add hphase =>
    rw [hphase] at hok
    refine ⟨⟨rfl, fun i hi => ?_⟩, hmove _ (by simp [hphase]) hok⟩
    have hlt : i < d.metadata.pieceCount := by simpa using (List.getElem?_eq_some_iff.mp hi).1
    refine ⟨hlt, fun j _ _ => ?_⟩
    rw [show view.file = file from hok]
    rfl

end Main

section Workers

variable {k : Nat} {w w' : Worker}

theorem Progress.fetching (h : Progress ssl file d contents) (hw : d.workers[k]? = some w) (hne : w ≠ .stopped) :
    d.phase = .fetching := by
  by_contra hphase
  exact hne (h.idle hphase w (List.mem_of_getElem? hw))

/-- A worker may move on if it keeps hold of its piece, or the piece needs no worker any more. -/
theorem Progress.setWorker (h : Progress ssl file d contents) (hphase : d.phase = .fetching)
    (hw : d.workers[k]? = some w) (hok : WorkerOk file d contents w')
    (hkeep : ∀ i, w.piece = some i → w'.piece = some i ∨ i ∈ d.completed ∨ d.cancelled = true ∨ d.pieceFailed = true) :
    Progress ssl file (d.setWorker k w') contents := by
  have hphaseOk := h.phase
  rw [hphase] at hphaseOk
  obtain ⟨hend, hcovered⟩ := hphaseOk
  have hset : w' ∈ d.workers.set k w' := List.mem_set (List.getElem?_eq_some_iff.mp hw).1 w'
  refine ⟨h.describes, h.seeders, h.completed, fun v hv => ?_, fun hne => absurd hphase hne, ?_⟩
  · rcases List.mem_or_eq_of_mem_set hv with hv | rfl
    · exact h.workers v hv
    · exact hok
  · change PhaseOk file (d.setWorker k w') contents d.phase
    rw [hphase]
    refine ⟨hend, hcovered.missing, hcovered.order, fun hc hf p hp i hi => ?_, fun hne => ?_⟩
    · rcases hcovered.claimed hc hf p hp i hi with hdone | ⟨v, hv, hpiece⟩
      · exact Or.inl hdone
      · by_cases hvw : v = w
        · rcases hkeep i (hvw ▸ hpiece) with hkept | hdone | hcancelled | hfailed
          · exact Or.inr ⟨w', hset, hkept⟩
          · exact Or.inl hdone
          · exact absurd (hcancelled.symm.trans hc) (by simp)
          · exact absurd (hfailed.symm.trans hf) (by simp)
        · obtain ⟨j, hj⟩ := List.mem_iff_getElem?.mp hv
          refine Or.inr ⟨v, List.mem_iff_getElem?.mpr ⟨j, ?_⟩, hpiece⟩
          have hjk : k ≠ j := by
            rintro rfl
            exact hvw (Option.some.inj (hj.symm.trans hw))
          change (d.workers.set k w')[j]? = some v
          rw [List.getElem?_set_ne hjk, hj]
    · exact List.ne_nil_of_mem hset

/-- Counting a piece that is in place. -/
theorem Progress.count (h : Progress ssl file d contents) (hphase : d.phase = .fetching) {i : Nat}
    (hi : i < d.metadata.pieceCount) (hholds : d.metadata.Holds file contents i) :
    Progress ssl file { d with completed := d.completed ++ [i] } contents := by
  have hok := h.phase
  rw [hphase] at hok
  obtain ⟨hend, hcovered⟩ := hok
  refine ⟨h.describes, h.seeders, fun j hj => ?_, fun w hw => ?_, fun hne => absurd hphase hne, ?_⟩
  · rcases List.mem_append.mp hj with hj | hj
    · exact h.completed j hj
    · rw [List.mem_singleton.mp hj]
      exact ⟨hi, hholds⟩
  · have hold := h.workers w hw
    refine ⟨hold.1, ?_⟩
    have hw' := hold.2
    cases w with
    | counted j => exact ⟨hw'.1, List.mem_append_left _ hw'.2⟩
    | _ => exact hw'
  · change PhaseOk file { d with completed := d.completed ++ [i] } contents d.phase
    rw [hphase]
    refine ⟨hend, fun j hj => ?_, hcovered.order, fun hc hf p hp j hj => ?_, hcovered.manned⟩
    · exact (hcovered.missing j hj).imp_left (List.mem_append_left _)
    · exact (hcovered.claimed hc hf p hp j hj).imp_left (List.mem_append_left _)

theorem Progress.fail (h : Progress ssl file d contents) (hphase : d.phase = .fetching) :
    Progress ssl file { d with pieceFailed := true } contents := by
  have hok := h.phase
  rw [hphase] at hok
  refine ⟨h.describes, h.seeders, h.completed, h.workers, fun hne => absurd hphase hne, ?_⟩
  change PhaseOk file { d with pieceFailed := true } contents d.phase
  rw [hphase]
  exact ⟨hok.1, hok.2.missing, hok.2.order, fun _ hf => by simp at hf, hok.2.manned⟩

theorem Progress.renew (h : Progress ssl file d contents) (hphase : d.phase = .fetching) {seeders : List SeederAccess}
    (hne : seeders ≠ []) (failures : Nat) :
    Progress ssl file { d with seeders, integrityFailures := failures } contents := by
  have hok := h.phase
  rw [hphase] at hok
  refine ⟨h.describes, hne, h.completed, h.workers, fun hne => absurd hphase hne, ?_⟩
  change PhaseOk file { d with seeders, integrityFailures := failures } contents d.phase
  rw [hphase]
  exact ⟨hok.1, hok.2.missing, hok.2.order, hok.2.claimed, hok.2.manned⟩

theorem Progress.claim (h : Progress ssl file d contents) (hw : d.workers[k]? = some .claiming) :
    (∀ i, d.order[d.next]? = some i →
      Progress ssl file ({ d with next := d.next + 1 }.setWorker k (.attempting i 0)) contents) ∧
    (d.order[d.next]? = none → Progress ssl file ({ d with next := d.next + 1 }.setWorker k .stopped) contents) := by
  have hphase := h.fetching hw (by simp)
  have hok := h.phase
  rw [hphase] at hok
  have hmoved : ∀ w', WorkerOk file d contents w' → Progress ssl file (d.setWorker k w') contents :=
    fun w' hw' => h.setWorker hphase hw hw' (by simp [Worker.piece])
  -- The counter moves past `d.next`, whose piece, if there is one, the worker takes.
  have hstep : ∀ w', WorkerOk file { d with next := d.next + 1 } contents w' →
      Progress ssl file (d.setWorker k w') contents →
      (∀ i, d.order[d.next]? = some i → w'.piece = some i) →
      Progress ssl file ({ d with next := d.next + 1 }.setWorker k w') contents := by
    intro w' hnew hold htaken
    have hset : w' ∈ d.workers.set k w' := List.mem_set (List.getElem?_eq_some_iff.mp hw).1 w'
    have hold' := hold.phase
    change PhaseOk file (d.setWorker k w') contents d.phase at hold'
    rw [hphase] at hold'
    refine ⟨h.describes, h.seeders, h.completed, fun v hv => ?_, fun hne => absurd hphase hne, ?_⟩
    · have hv' := hold.workers v hv
      refine ⟨hv'.1, ?_⟩
      have hv'' := hv'.2
      cases v with
      | stopped => exact fun hc => Nat.le_succ_of_le (hv'' hc)
      | _ => exact hv''
    · change PhaseOk file ({ d with next := d.next + 1 }.setWorker k w') contents d.phase
      rw [hphase]
      refine ⟨hok.1, hold'.2.missing, hold'.2.order, fun hc hf p hp i hi => ?_, hold'.2.manned⟩
      rcases Nat.lt_succ_iff_lt_or_eq.mp hp with hlt | rfl
      · exact hold'.2.claimed hc hf p hlt i hi
      · exact Or.inr ⟨w', hset, htaken i hi⟩
  constructor
  · intro i hi
    have hlt := hok.2.order i (List.mem_of_getElem? hi)
    have hw' : WorkerOk file d contents (.attempting i 0) := ⟨by simpa [Worker.piece] using hlt, trivial⟩
    refine hstep _ hw' (hmoved _ hw') fun j hj => ?_
    rw [hi] at hj
    rw [← Option.some.inj hj]
    rfl
  · intro hnone
    have hlast : d.order.length ≤ d.next := List.getElem?_eq_none_iff.mp hnone
    have hw' : WorkerOk file d contents .stopped := ⟨by simp [Worker.piece], fun _ => hlast⟩
    have hw'' : WorkerOk file { d with next := d.next + 1 } contents .stopped :=
      ⟨by simp [Worker.piece], fun _ => Nat.le_succ_of_le hlast⟩
    exact hstep _ hw'' (hmoved _ hw') (fun i hi => by rw [hnone] at hi; simp at hi)

theorem fetchPiece_success {expectedHash data : Bytes} {outcome : Outcome}
    (h : PeerClient.fetchPiece ssl expectedHash outcome = (.success, data)) : sha1Hex ssl data = expectedHash := by
  unfold PeerClient.fetchPiece at h
  split at h
  · split at h
    · simp at h
    · next hhash =>
      obtain ⟨-, rfl⟩ := Prod.mk.inj h
      simpa using hhash
  · next hne =>
    obtain ⟨rfl, rfl⟩ := Prod.mk.inj h
    exact absurd rfl hne

theorem Progress.answerStep {i attempt seeder : Nat} {now : Int} {located : Option (List SeederAccess)}
    {outcome : Outcome} (h : Progress ssl file d contents)
    (hw : d.workers[k]? = some (.requesting i attempt seeder)) :
    Progress ssl file (d.answerStep ssl k i attempt seeder now located outcome) contents := by
  have hphase := h.fetching hw (by simp)
  have hpiece := (h.workers _ (List.mem_of_getElem? hw)).1
  have hrenew := fun seeder failures => h.renew hphase (@seederAt_ne_nil d seeder now located h.seeders) failures
  unfold Download.answerStep
  dsimp only
  split
  · next data hdata =>
    have hdata' := (h.describes.hash i (hpiece i rfl) data).mp (fetchPiece_success hdata)
    exact (hrenew _ d.integrityFailures).setWorker hphase hw
      ⟨hpiece, hdata', Nat.zero_le _, AgreesOn.empty (by simp)⟩ (fun j hj => Or.inl hj)
  · exact (hrenew _ (d.integrityFailures + 1)).setWorker hphase hw ⟨hpiece, trivial⟩ (fun j hj => Or.inl hj)
  · exact (hrenew _ d.integrityFailures).setWorker hphase hw ⟨hpiece, trivial⟩ (fun j hj => Or.inl hj)

theorem Progress.workerStep {input : Input} (h : Progress ssl file d contents) :
    EffectOk file d contents (d.workerStep ssl contents k input).2 ∧
      Progress ssl file (d.workerStep ssl contents k input).1 ((d.workerStep ssl contents k input).2.after contents) := by
  have hmoves : ∀ {v v' : Worker}, d.workers[k]? = some v → v ≠ .stopped → WorkerOk file d contents v' →
      v'.piece = v.piece → Progress ssl file (d.setWorker k v') contents :=
    fun hw hne hok hpiece => h.setWorker (h.fetching hw hne) hw hok (fun j hj => Or.inl (hpiece.trans hj))
  have hcases := workerStep_cases ssl d contents k input
  generalize d.workerStep ssl contents k input = result at hcases ⊢
  cases hcases with
  | absent | stopped | wait | block => exact ⟨trivial, h⟩
  | goOn hw => exact ⟨trivial, hmoves hw (by simp) ⟨by simp [Worker.piece], trivial⟩ rfl⟩
  | quit hw hcancelled =>
    exact ⟨trivial, hmoves hw (by simp) ⟨by simp [Worker.piece], fun hc => by simp [hcancelled] at hc⟩ rfl⟩
  | claim hw hnext => exact ⟨trivial, (h.claim hw).1 _ hnext⟩
  | miss hw hnext => exact ⟨trivial, (h.claim hw).2 hnext⟩
  | ask hw | giveUp hw | notWritten hw | fail hw =>
    have hpiece := (h.workers _ (List.mem_of_getElem? hw)).1
    exact ⟨trivial, hmoves hw (by simp) ⟨hpiece, trivial⟩ rfl⟩
  | answer hw => exact ⟨trivial, h.answerStep hw⟩
  | @wrote _ i attempt done data hw hall =>
    obtain ⟨hpiece, hdata, hdone, hagree⟩ := h.workers _ (List.mem_of_getElem? hw)
    have hlen : data.length = d.metadata.pieceLength i := by rw [hdata, h.describes.length_piece (hpiece i rfl)]
    rw [show done = d.metadata.pieceLength i by omega] at hagree
    exact ⟨trivial, hmoves hw (by simp) ⟨hpiece, hagree⟩ rfl⟩
  | @write i attempt done done' data contents' outcome hw hmore hstep =>
    obtain ⟨hpiece, hdata, hdone, hagree⟩ := h.workers _ (List.mem_of_getElem? hw)
    have hlen : data.length = d.metadata.pieceLength i := by rw [hdata, h.describes.length_piece (hpiece i rfl)]
    have hslice : data = pread file (pieceOffset i) data.length := by
      rw [hlen]
      exact hdata
    obtain ⟨htoward, hdone', hagree'⟩ := writeStep_eq_some hslice hmore hagree hstep
    refine ⟨htoward, ?_⟩
    exact (h.toward htoward).setWorker (h.fetching hw (by simp)) hw ⟨hpiece, hdata, hdone', hagree'⟩
      (fun j hj => Or.inl hj)
  | @count _ i hw =>
    have hphase := h.fetching hw (by simp)
    obtain ⟨hpiece, hholds⟩ := h.workers _ (List.mem_of_getElem? hw)
    have hcount := h.count hphase (hpiece i rfl) hholds
    exact ⟨trivial, hcount.setWorker hphase hw ⟨hpiece, hholds, by simp⟩ (fun j hj => Or.inl hj)⟩
  | @publish _ i hw =>
    obtain ⟨hpiece, hholds, hdone⟩ := h.workers _ (List.mem_of_getElem? hw)
    refine ⟨⟨hpiece i rfl, hholds⟩, ?_⟩
    refine h.setWorker (h.fetching hw (by simp)) hw ⟨by simp [Worker.piece], trivial⟩ fun j hj => ?_
    obtain rfl : i = j := by simpa [Worker.piece] using hj
    exact Or.inr (Or.inl hdone)
  | drop hw hcancelled =>
    exact ⟨trivial, h.setWorker (h.fetching hw (by simp)) hw ⟨by simp [Worker.piece], trivial⟩
      (fun j _ => Or.inr (Or.inr (Or.inl hcancelled)))⟩
  | record hw =>
    have hphase := h.fetching hw (by simp)
    exact ⟨trivial, (h.fail hphase).setWorker hphase hw ⟨by simp [Worker.piece], trivial⟩
      (fun j _ => Or.inr (Or.inr (Or.inr rfl)))⟩

end Workers

/-- What one step keeps: the effect is sound, and the progress holds of the file it leaves. -/
theorem Progress.step {view : View} {action : Action} (h : Progress ssl file d view.file) :
    EffectOk file d view.file (d.step ssl view action).2 ∧
      Progress ssl file (d.step ssl view action).1 ((d.step ssl view action).2.after view.file) := by
  cases action with
  | cancel =>
    refine ⟨trivial, h.describes, h.seeders, h.completed, fun w hw => ?_, h.idle, ?_⟩
    · have hold := h.workers w hw
      refine ⟨hold.1, ?_⟩
      have hw' := hold.2
      cases w with
      | stopped => exact fun hc => absurd (show true = false from hc) (by simp)
      | _ => exact hw'
    · have hok := h.phase
      change PhaseOk file { d with cancelled := true } view.file d.phase
      generalize d.phase = phase at hok ⊢
      cases phase with
      | fetching => exact ⟨hok.1, hok.2.missing, hok.2.order,
          fun hc => absurd (show true = false from hc) (by simp), hok.2.manned⟩
      | finished failure => cases failure <;> exact hok
      | _ => exact hok
  | main input => exact h.mainStep
  | worker k input => exact h.workerStep

/-- Before the file is cut to size nothing is claimed about its contents. -/
theorem Progress.opened (h : Progress ssl file d contents) {resuming : Bool} (hphase : d.phase = .truncating resuming) :
    Progress ssl file d contents' := by
  have hidle := h.idle (by simp [hphase])
  have hok := h.phase
  rw [hphase] at hok
  have hnone : d.completed = [] := hok
  refine ⟨h.describes, h.seeders, by simp [hnone], fun w hw => ?_, h.idle, by rw [hphase]; exact hok⟩
  have hold := h.workers w hw
  obtain rfl := hidle w hw
  exact hold

theorem create_progress {group name destination : Bytes} {metadata : FileMetadata} {seeders : List SeederAccess}
    (hd : Describes ssl metadata file) (hne : seeders ≠ []) :
    Progress ssl file (create group name destination metadata seeders) contents :=
  ⟨hd, hne, by simp [create], by simp [create], by simp [create], rfl⟩

end Download

end TorrentAtlas
