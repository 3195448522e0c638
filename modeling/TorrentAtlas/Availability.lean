import TorrentAtlas.DownloadProgress
import TorrentAtlas.Ownership
import TorrentAtlas.Resume
import TorrentAtlas.Withdrawal

/-!
# What the table of shared files offers

An entry offers pieces of the file at a path. Entries are added and pieces marked under
a group and a file name, while the bytes belong to the path. What is offered is there
as long as each download marks, adds, opens, writes and moves its own file only.
-/
namespace TorrentAtlas

open Encoding Crypto PieceFile

namespace FileMetadata

variable {ssl : OpenSsl} {m : FileMetadata} {file file' : Bytes}

/-- Every piece hash is that of a block of the piece's length and of nothing else. -/
def Blocks (ssl : OpenSsl) (m : FileMetadata) : Prop :=
  ∀ i < m.pieceCount, ∃ block : Bytes, block.length = m.pieceLength i ∧
    ∀ data, sha1Hex ssl data = m.pieceHashes.getD i [] ↔ data = block

theorem Describes.blocks (h : Describes ssl m file) : Blocks ssl m :=
  fun i hi => ⟨m.piece file i, h.length_piece hi, h.hash i hi⟩

/-- Such blocks make up a file. -/
theorem Blocks.exists_describes (h : Blocks ssl m) (hcount : m.pieceCount = (pieceCountForSize m.size).toNat) :
    ∃ file, Describes ssl m file := by
  choose! block hlength hhash using h
  let file : Bytes := List.ofFn (fun j : Fin m.size.toNat => (block (j / PIECE_SIZE)).getD (j % PIECE_SIZE) 0)
  have hsize : file.length = m.size.toNat := List.length_ofFn
  refine ⟨file, hcount, hsize, fun i hi data => ?_⟩
  have hpiece : m.piece file i = block i := by
    have hlen := pieceLength_eq hcount hi
    have hlt := (lt_pieceCount hcount).mp hi
    refine List.ext_getElem? fun k => ?_
    rw [piece, pread, List.getElem?_take, List.getElem?_drop, pieceOffset]
    split
    · next hk =>
      have hin : i * PIECE_SIZE + k < m.size.toNat := by omega
      have hoffset : k < PIECE_SIZE := by omega
      have hblock : k < (block i).length := by
        rw [hlength i hi]
        exact hk
      rw [List.getElem?_eq_getElem (by rw [hsize]; exact hin), List.getElem_ofFn]
      simp only
      rw [Nat.mul_comm, Nat.mul_add_div (by decide), Nat.mul_add_mod, Nat.div_eq_of_lt hoffset, Nat.mod_eq_of_lt hoffset,
        Nat.add_zero, List.getD_eq_getElem?_getD, List.getElem?_eq_getElem hblock, Option.getD_some]
    · next hk => rw [List.getElem?_eq_none (by rw [hlength i hi]; omega)]
  rw [hpiece]
  exact hhash i hi data

/-- Metadata describes one file. -/
theorem Describes.unique (h : Describes ssl m file) (h' : Describes ssl m file') : file' = file := by
  refine h.eq_of_holds (fun j hj => ?_) fun i hi => ?_
  · have hsize := h'.size.trans h.size.symm
    rw [AgreesAt, List.getElem?_eq_none (by omega), List.getElem?_eq_none hj]
  · exact holds_iff.mpr ((h.hash i hi _).mp ((h'.hash i hi _).mpr rfl))

end FileMetadata

namespace Download

/-- `prepare` has opened the file, and the download is not finished. -/
def Phase.isOpened : Phase → Bool
  | .starting | .opening _ | .finished _ => false
  | _ => true

variable {d : Download} {ssl : OpenSsl} {view : View}

theorem intent_writes {action : Action} (hidle : d.Idle) (h : d.intent action = .writes) : d.phase.isOpened = true := by
  cases action with
  | cancel => simp [intent] at h
  | main input =>
    simp only [intent] at h
    split at h
    case h_2 hphase =>
      rw [hphase]
      rfl
    all_goals first | (split at h <;> simp at h) | simp at h
  | worker k input =>
    by_cases hphase : d.phase = .fetching
    · rw [hphase]
      rfl
    · simp only [intent] at h
      split at h
      · next hw => exact absurd (hidle hphase _ (List.mem_of_getElem? hw)) (by simp)
      · simp at h
      · simp at h

theorem step_opened {action : Action} (h : (d.step ssl view action).1.phase.isOpened = true) :
    d.phase.isOpened = true ∨ (d.step ssl view action).2 = .openPart := by
  cases action with
  | cancel => exact Or.inl h
  | worker k input =>
    have hframe := (@workerStep_frame d ssl view.file k input).2.1
    simp only [step, hframe] at h
    exact Or.inl h
  | main input =>
    cases hphase : d.phase with
    | starting => simp [step, mainStep, hphase, Phase.isOpened] at h
    | opening resuming =>
      simp only [step, mainStep, hphase] at h ⊢
      split at h
      · simp [finish, Phase.isOpened] at h
      · next hok =>
        rw [if_neg hok]
        exact Or.inr rfl
    | finished failure => simp [step, mainStep, hphase, Phase.isOpened] at h
    | _ => exact Or.inl rfl

theorem step_finished {action : Action} (hidle : d.Idle) (h : d.isFinished = true) :
    (d.step ssl view action).2 = .none ∧ (d.step ssl view action).1.phase = d.phase := by
  obtain ⟨failure, hphase⟩ : ∃ failure, d.phase = .finished failure := by
    unfold isFinished at h
    split at h
    · next failure hphase => exact ⟨failure, hphase⟩
    · simp at h
  cases action with
  | cancel => exact ⟨rfl, rfl⟩
  | main input => simp [step, mainStep, hphase]
  | worker k input =>
    simp only [step]
    rw [workerStep_idle view.file k input (hidle (by simp [hphase]))]
    exact ⟨rfl, rfl⟩

end Download

namespace Client

open FileMetadata Download

/-- The entry that an upload is about to add. -/
def Prompt.pledge : Prompt → Option LocalFile
  | .sharing _ path metadata | .adding _ path metadata =>
    some ⟨path, metadata, List.replicate metadata.pieceCount true⟩
  | _ => none

/-- The path that an upload has opened, the file it reads and what it has read. -/
def Prompt.hashed : Prompt → Option (Bytes × Nat × Bytes)
  | .hashing _ path file data => some (path, file, data)
  | _ => none

/-- What the tracker has answered about the download that is about to be created. -/
def Prompt.located : Prompt → Option (FileMetadata × List SeederAccess)
  | .starting _ _ _ metadata seeders => some (metadata, seeders)
  | _ => none

/-- The entries of the table and the one that an upload is about to add. -/
def offered (c : Client) : List LocalFile := c.shared.entries.map Prod.snd ++ c.prompt.pledge.toList

section Condition

variable (host : Host) (c : Client)

/-- No piece of a file at `path` is offered, and no upload is about to. -/
def Unoffered (path : Bytes) : Prop :=
  (∀ file ∈ c.offered, true ∈ file.available → host.resolve file.path ≠ host.resolve path) ∧
    ∀ p ∈ c.prompt.hashed, host.resolve p.1 ≠ host.resolve path

/-- Entries that offer the open file of `t`, and downloads that write it, have the same metadata; no upload reads it. -/
def WritesOwn (t : Task) : Prop :=
  (∀ file ∈ c.offered, true ∈ file.available → c.files.lookup host.resolve file.path = t.file →
      file.metadata = t.download.metadata) ∧
    (∀ u ∈ c.downloads, u.download.isFinished = false → u.file = t.file →
      u.download.metadata = t.download.metadata) ∧
    ∀ p ∈ c.prompt.hashed, some p.2.1 ≠ t.file

/-- Entries that offer the file at the destination have the same metadata, and if there are any, the file that takes its
place is the one that `t` has written. -/
def MovesOwn (t : Task) : Prop :=
  (∀ file ∈ c.offered, true ∈ file.available → host.resolve file.path = host.resolve t.download.destination →
      file.metadata = t.download.metadata ∧ c.files.lookup host.resolve t.download.partPath = t.file) ∧
    ∀ p ∈ c.prompt.hashed, host.resolve p.1 = host.resolve t.download.destination →
      c.files.lookup host.resolve t.download.partPath = some p.2.1

/-- There is no file at `path`, or it is the one that `t` has written. -/
def IsOwn (t : Task) (path : Bytes) : Prop :=
  c.files.lookup host.resolve path = none ∨ c.files.lookup host.resolve path = t.file

/-- What `t` is about to do spoils nothing that is offered. -/
def Harmless (t : Task) : Intent → Prop
  | .none => True
  | .opens => c.files.lookup host.resolve t.download.partPath = none → Unoffered host c t.download.partPath
  | .writes => WritesOwn host c t
  | .moves => MovesOwn host c t
  | .adds file => true ∈ file.available → IsOwn host c t file.path
  | .marks piece => ∀ file ∈ c.shared.find t.download.group t.download.name, file.available[piece]? = some false →
      c.files.lookup host.resolve file.path = none ∨
        c.files.lookup host.resolve file.path = t.file ∧ file.metadata = t.download.metadata

/-- The download that takes the step keeps to its own file. -/
def KeepsOffers (action : Action) : Prop :=
  ∀ p ∈ action.download, ∀ t ∈ c.downloads[p.1]?, Harmless host c t (t.download.intent p.2)

instance (path : Bytes) : Decidable (Unoffered host c path) := inferInstanceAs (Decidable (_ ∧ _))

instance (t : Task) : Decidable (WritesOwn host c t) := inferInstanceAs (Decidable (_ ∧ _ ∧ _))

instance (t : Task) : Decidable (MovesOwn host c t) := inferInstanceAs (Decidable (_ ∧ _))

instance (t : Task) (path : Bytes) : Decidable (IsOwn host c t path) := inferInstanceAs (Decidable (_ ∨ _))

instance (t : Task) : ∀ intent : Intent, Decidable (Harmless host c t intent)
  | .none => .isTrue trivial
  | .opens => inferInstanceAs (Decidable (_ → _))
  | .writes => inferInstanceAs (Decidable (WritesOwn host c t))
  | .moves => inferInstanceAs (Decidable (MovesOwn host c t))
  | .adds _ => inferInstanceAs (Decidable (_ → _))
  | .marks piece => inferInstanceAs (Decidable (∀ file ∈ c.shared.find t.download.group t.download.name,
      file.available[piece]? = some false → c.files.lookup host.resolve file.path = none ∨
        c.files.lookup host.resolve file.path = t.file ∧ file.metadata = t.download.metadata))

instance (action : Action) : Decidable (KeepsOffers host c action) :=
  inferInstanceAs (Decidable (∀ p ∈ action.download, ∀ t ∈ c.downloads[p.1]?, Harmless host c t (t.download.intent p.2)))

end Condition

/-- Every piece that an entry offers is in the file at its path, if there is one. -/
structure Correct (ssl : OpenSsl) (host : Host) (files : FileSystem) (file : LocalFile) : Prop where
  sized : file.available.length = file.metadata.pieceCount
  right : ∀ i, file.available[i]? = some true → ∀ n, files.lookup host.resolve file.path = some n →
    sha1Hex ssl (file.metadata.piece (files.read (some n)) i) = file.metadata.pieceHashes.getD i []

/-- A download and the file it has opened. -/
structure Running (ssl : OpenSsl) (files : FileSystem) (t : Task) : Prop where
  idle : t.download.Idle
  opened : t.download.phase.isOpened = true → ∃ n, t.file = some n ∧ n < files.contents.length
  progress : t.download.isFinished = false → ∃ file, Progress ssl file t.download (files.read t.file)

/-- What the prompt has read and what it has been told. -/
structure Prepared (ssl : OpenSsl) (host : Host) (files : FileSystem) (prompt : Prompt) : Prop where
  hashed : ∀ path n data, prompt.hashed = some (path, n, data) → data = (files.read (some n)).take data.length ∧
    (files.lookup host.resolve path = none ∨ files.lookup host.resolve path = some n)
  located : ∀ metadata seeders, prompt.located = some (metadata, seeders) → seeders ≠ [] ∧
    ∃ file, Describes ssl metadata file

structure Truthful (ssl : OpenSsl) (host : Host) (c : Client) : Prop where
  entries : ∀ file ∈ c.offered, Correct ssl host c.files file
  downloads : ∀ t ∈ c.downloads, Running ssl c.files t
  prompt : Prepared ssl host c.files c.prompt

variable {ssl : OpenSsl} {host : Host} {c : Client}

theorem mem_offered {file : LocalFile} : file ∈ c.offered ↔
    (∃ group name, c.shared.find group name = some file) ∨ c.prompt.pledge = some file := by
  rw [offered, List.mem_append, List.mem_map, Option.mem_toList]
  refine or_congr_left ⟨?_, ?_⟩
  · rintro ⟨⟨key, file⟩, hmem, rfl⟩
    exact ⟨(ofLex key).1, (ofLex key).2, (OrderedMap.mem_entries_iff _ _ _).mp hmem⟩
  · rintro ⟨group, name, hfind⟩
    exact ⟨(toLex (group, name), file), (OrderedMap.mem_entries_iff _ _ _).mpr hfind, rfl⟩

theorem prepared_of_none {files : FileSystem} {prompt : Prompt} (hhashed : prompt.hashed = none)
    (hlocated : prompt.located = none) : Prepared ssl host files prompt :=
  ⟨by simp [hhashed], by simp [hlocated]⟩

/-- A step that leaves the files alone only has to answer for what is new. -/
theorem Truthful.frame (h : Truthful ssl host c) {c' : Client} (hfiles : c'.files = c.files)
    (hentries : ∀ file ∈ c'.offered, file ∈ c.offered ∨ Correct ssl host c.files file)
    (hdownloads : ∀ t ∈ c'.downloads, t ∈ c.downloads ∨ Running ssl c.files t)
    (hprompt : Prepared ssl host c.files c'.prompt) : Truthful ssl host c' := by
  refine ⟨fun file hfile => ?_, fun t ht => ?_, ?_⟩
  · rw [hfiles]
    rcases hentries file hfile with hold | hnew
    · exact h.entries file hold
    · exact hnew
  · rw [hfiles]
    rcases hdownloads t ht with hold | hnew
    · exact h.downloads t hold
    · exact hnew
  · rw [hfiles]
    exact hprompt

/-- The prompt goes on, and what it is about to add is right. -/
theorem Truthful.withPrompt (h : Truthful ssl host c) {prompt : Prompt}
    (hpledge : ∀ file, prompt.pledge = some file → c.prompt.pledge = some file ∨ Correct ssl host c.files file)
    (hprompt : Prepared ssl host c.files prompt) : Truthful ssl host { c with prompt } := by
  refine h.frame rfl (fun file hfile => ?_) (fun t ht => Or.inl ht) hprompt
  rcases mem_offered.mp hfile with hfind | hmem
  · exact Or.inl (mem_offered.mpr (Or.inl hfind))
  · exact (hpledge file hmem).imp_left fun hold => mem_offered.mpr (Or.inr hold)

/-- The prompt goes on to where it has nothing to answer for. -/
theorem Truthful.quiet (h : Truthful ssl host c) {prompt : Prompt} (hpledge : prompt.pledge = none)
    (hhashed : prompt.hashed = none) (hlocated : prompt.located = none) : Truthful ssl host { c with prompt } :=
  h.withPrompt (by simp [hpledge]) (prepared_of_none hhashed hlocated)

theorem Truthful.withDownloads (h : Truthful ssl host c) {downloads : List Task}
    (hdownloads : ∀ t ∈ downloads, t ∈ c.downloads ∨ Running ssl c.files t) :
    Truthful ssl host { c with downloads } :=
  h.frame rfl (fun _ hfile => Or.inl hfile) hdownloads h.prompt

theorem Truthful.withShared (h : Truthful ssl host c) {shared : SharedFiles}
    (hshared : ∀ group name file, shared.find group name = some file →
      file ∈ c.offered ∨ Correct ssl host c.files file) : Truthful ssl host { c with shared } := by
  refine h.frame rfl (fun file hfile => ?_) (fun t ht => Or.inl ht) h.prompt
  rcases mem_offered.mp hfile with ⟨group, name, hfind⟩ | hmem
  · exact hshared group name file hfind
  · exact Or.inl (mem_offered.mpr (Or.inr hmem))

section Prompt

theorem Running.cancel {files : FileSystem} {t : Task} (h : Running ssl files t) : Running ssl files t.cancel := by
  refine ⟨@step_idle t.download ssl ⟨none, [], []⟩ .cancel h.idle, h.opened, fun hnot => ?_⟩
  obtain ⟨file, hprogress⟩ := h.progress hnot
  have hstep := @Progress.step ssl file t.download ⟨none, files.read t.file, []⟩ .cancel hprogress
  exact ⟨file, hstep.2⟩

theorem Running.create {files : FileSystem} {group name path : Bytes} {metadata : FileMetadata}
    {seeders : List SeederAccess} {file : Bytes} (hdescribes : Describes ssl metadata file) (hne : seeders ≠ []) :
    Running ssl files ⟨Download.create group name path metadata seeders, none, none⟩ :=
  ⟨fun _ w hw => by simp [Download.create] at hw, fun h => by simp [Download.create, Phase.isOpened] at h,
    fun _ => ⟨file, create_progress hdescribes hne⟩⟩

theorem running_modify (h : Truthful ssl host c) (i : Nat) :
    ∀ t ∈ c.downloads.modify i Task.cancel, t ∈ c.downloads ∨ Running ssl c.files t := by
  intro t ht
  obtain ⟨k, hk⟩ := List.mem_iff_getElem?.mp ht
  rw [List.getElem?_modify] at hk
  split at hk
  · obtain ⟨u, hu, rfl⟩ := Option.map_eq_some_iff.mp hk
    exact Or.inr (h.downloads u (List.mem_of_getElem? hu)).cancel
  · rw [id_map'] at hk
    exact Or.inl (List.mem_of_getElem? hk)

theorem find_of_find_mirror {shared : SharedFiles} {command : CommandLine} {group name : Bytes} {file : LocalFile}
    (h : (mirror shared command).find group name = some file) : shared.find group name = some file := by
  unfold mirror at h
  split_ifs at h
  · split at h
    · rw [SharedFiles.find_remove] at h
      split at h
      · simp at h
      · exact h
    · exact h
  · split at h
    · rw [SharedFiles.find_removeGroup] at h
      split at h
      · simp at h
      · exact h
    · exact h
  · simp at h
  · exact h

/-- The entry of an upload offers what its file contains. -/
theorem Correct.upload {files : FileSystem} {path : Bytes} {n : Nat} (hsize : (files.read (some n)).length < 2 ^ 63)
    (hpath : files.lookup host.resolve path = none ∨ files.lookup host.resolve path = some n) :
    Correct ssl host files ⟨path, hash ssl (files.read (some n)),
      List.replicate (hash ssl (files.read (some n))).pieceCount true⟩ := by
  refine ⟨List.length_replicate, fun i hi m hm => ?_⟩
  obtain rfl : n = m := by
    rcases hpath with hnone | hsome
    · simp [hnone] at hm
    · exact Option.some.inj (hsome.symm.trans hm)
  have hbound : (files.read (some n)).length < u64Bound := by
    simp only [u64Bound]
    omega
  have hlt : i < (hash ssl (files.read (some n))).pieceCount := by
    simpa using (List.getElem?_eq_some_iff.mp hi).1
  rw [List.getD_eq_getElem?_getD, getElem?_pieceHashes ssl hbound hlt]
  rfl

/-- What an answer of the tracker may say. -/
def Located (ssl : OpenSsl) (action : Action) : Prop :=
  ∀ reply metadata seeders, action = .prompt (.reply reply) →
    TrackerClient.locate 0 reply = .ok (metadata, seeders) → Blocks ssl metadata

/-- A command that hashes what is to be uploaded. -/
theorem Truthful.hashes (h : Truthful ssl host c) {group path data : Bytes} {n : Nat}
    (hdata : data = (c.files.read (some n)).take data.length)
    (hpath : c.files.lookup host.resolve path = none ∨ c.files.lookup host.resolve path = some n) :
    Truthful ssl host { c with prompt := .hashing group path n data } := by
  refine h.withPrompt (by simp [Prompt.pledge]) ⟨fun p m d hp => ?_, by simp [Prompt.located]⟩
  simp only [Prompt.hashed, Option.some.injEq, Prod.mk.injEq] at hp
  obtain ⟨rfl, rfl, rfl⟩ := hp
  exact ⟨hdata, hpath⟩

theorem Truthful.promptStep (h : Truthful ssl host c) {input : Input} (hlocated : Located ssl (.prompt input)) :
    Truthful ssl host (c.promptStep ssl host input).1 := by
  have hcases := promptStep_cases ssl host c input
  generalize c.promptStep ssl host input = result at hcases ⊢
  cases hcases with
  | stay => exact h
  | close => exact (h.withDownloads (running_modify h _)).quiet rfl rfl rfl
  | opened hprompt hfile => exact h.hashes rfl (Or.inr hfile)
  | @hashOn group path data data' n outcome hprompt hhash =>
    obtain ⟨hdata, hpath⟩ := h.prompt.hashed path n data (by rw [hprompt]; rfl)
    rcases @hashStep_cases ssl _ _ outcome hdata with ⟨hfailed, -⟩ | ⟨hdone, -⟩ | ⟨data'', hmore, hdata'⟩
    · exact absurd (hfailed.symm.trans hhash) (by simp)
    · exact absurd (hdone.symm.trans hhash) (by simp)
    · obtain rfl := HashStep.more.inj (hmore.symm.trans hhash)
      exact h.hashes hdata' hpath
  | @hashed group path data n outcome metadata hprompt hhash =>
    obtain ⟨hdata, hpath⟩ := h.prompt.hashed path n data (by rw [hprompt]; rfl)
    rcases @hashStep_cases ssl _ _ outcome hdata with ⟨hfailed, -⟩ | ⟨hdone, hsize⟩ | ⟨data'', hmore, -⟩
    · exact absurd (hfailed.symm.trans hhash) (by simp)
    · obtain rfl := HashStep.done.inj (hdone.symm.trans hhash)
      refine h.withPrompt (fun file hfile => Or.inr ?_) (prepared_of_none rfl rfl)
      rw [← Option.some.inj hfile]
      exact Correct.upload hsize hpath
    · exact absurd (hmore.symm.trans hhash) (by simp)
  | shared hprompt =>
    exact h.withPrompt (fun file hfile => Or.inl (by rw [hprompt]; exact hfile)) (prepared_of_none rfl rfl)
  | @add _ group path metadata hprompt =>
    have hentries : ∀ g n file, (c.shared.add group (filename path)
        ⟨path, metadata, List.replicate metadata.pieceCount true⟩).find g n = some file →
          file ∈ c.offered ∨ Correct ssl host c.files file := by
      intro g n file hfind
      rw [SharedFiles.find_add] at hfind
      split at hfind
      · exact Or.inl (mem_offered.mpr (Or.inr (by rw [hprompt, ← hfind]; rfl)))
      · exact Or.inl (mem_offered.mpr (Or.inl ⟨g, n, hfind⟩))
    exact (h.withShared hentries).quiet rfl rfl rfl
  | @locate group name path reply metadata seeders hprompt hreply =>
    obtain ⟨hvalid, hne, -⟩ := TrackerClient.locate_eq_ok hreply
    refine h.withPrompt (by simp [Prompt.pledge]) ⟨by simp [Prompt.hashed], fun m s hms => ?_⟩
    obtain ⟨rfl, rfl⟩ := Prod.mk.inj (Option.some.inj hms)
    exact ⟨hne, (hlocated reply metadata seeders rfl hreply).exists_describes (valid_count hvalid)⟩
  | @start _ group name path metadata seeders hprompt =>
    obtain ⟨hne, file, hdescribes⟩ := h.prompt.located metadata seeders (by rw [hprompt]; rfl)
    refine (h.withDownloads fun t ht => ?_).quiet rfl rfl rfl
    rcases List.mem_append.mp ht with hold | hnew
    · exact Or.inl hold
    · rw [List.mem_singleton.mp hnew]
      exact Or.inr (Running.create hdescribes hne)
  | @cancel _ name =>
    unfold cancelLast
    split
    · exact h.quiet rfl rfl rfl
    · exact (h.withDownloads (running_modify h _)).quiet rfl rfl rfl
  | mirror =>
    exact (h.withShared fun g n file hfind =>
      Or.inl (mem_offered.mpr (Or.inl ⟨g, n, find_of_find_mirror hfind⟩))).quiet rfl rfl rfl
  | abandon | resolve | probe | check | forward => exact h.quiet rfl rfl rfl

theorem Truthful.typed (h : Truthful ssl host c) (line : Bytes) : Truthful ssl host (c.typed line).1 := by
  have hcases := typed_cases c line
  generalize c.typed line = result at hcases ⊢
  cases hcases with
  | stay => exact h
  | _ => exact h.quiet rfl rfl rfl

end Prompt

section Files

variable {t : Task} {d : Download} {file : Bytes} {n : Nat}

/-- A step that changes the files has to answer for everything. -/
theorem Truthful.withFiles (h : Truthful ssl host c) {files : FileSystem} {downloads : List Task}
    (hentries : ∀ e ∈ c.offered, Correct ssl host c.files e → Correct ssl host files e)
    (hdownloads : ∀ u ∈ downloads, Running ssl files u)
    (hhashed : ∀ path n data, c.prompt.hashed = some (path, n, data) → files.read (some n) = c.files.read (some n) ∧
      (c.files.lookup host.resolve path = none ∨ c.files.lookup host.resolve path = some n →
        files.lookup host.resolve path = none ∨ files.lookup host.resolve path = some n)) :
    Truthful ssl host { c with files, downloads } := by
  refine ⟨fun e he => hentries e he (h.entries e he), hdownloads, ⟨fun path n data hp => ?_, h.prompt.located⟩⟩
  obtain ⟨hread, hlookup⟩ := hhashed path n data hp
  obtain ⟨hdata, hpath⟩ := h.prompt.hashed path n data hp
  rw [hread]
  exact ⟨hdata, hlookup hpath⟩

/-- An entry that offers nothing stays right whatever happens to the files. -/
theorem Correct.of_none {files files' : FileSystem} {e : LocalFile} (h : Correct ssl host files e)
    (hnone : true ∉ e.available) : Correct ssl host files' e :=
  ⟨h.sized, fun _ hi => absurd (List.mem_of_getElem? hi) hnone⟩

theorem Correct.of_same {files files' : FileSystem} {e : LocalFile} (h : Correct ssl host files e)
    (hlookup : ∀ n, files'.lookup host.resolve e.path = some n → files.lookup host.resolve e.path = some n ∧
      files'.read (some n) = files.read (some n)) : Correct ssl host files' e := by
  refine ⟨h.sized, fun i hi n hn => ?_⟩
  obtain ⟨hold, hread⟩ := hlookup n hn
  rw [hread]
  exact h.right i hi n hold

theorem Running.of_same {files files' : FileSystem} {u : Task} (h : Running ssl files u)
    (hlength : files.contents.length ≤ files'.contents.length)
    (hread : u.download.isFinished = false → files'.read u.file = files.read u.file) : Running ssl files' u := by
  refine ⟨h.idle, fun hopened => ?_, fun hnot => ?_⟩
  · obtain ⟨n, hfile, hn⟩ := h.opened hopened
    exact ⟨n, hfile, Nat.lt_of_lt_of_le hn hlength⟩
  · rw [hread hnot]
    exact h.progress hnot

theorem old_or_running {i : Nat} {t' : Task} (ht' : Running ssl c.files t') :
    ∀ u ∈ c.downloads.set i t', u ∈ c.downloads ∨ Running ssl c.files u := by
  intro u hu
  rcases List.mem_or_eq_of_mem_set hu with hu | rfl
  · exact Or.inl hu
  · exact Or.inr ht'

theorem running_set {files : FileSystem} {i : Nat} {t' : Task} (hothers : ∀ u ∈ c.downloads, Running ssl files u)
    (ht' : Running ssl files t') : ∀ u ∈ c.downloads.set i t', Running ssl files u := by
  intro u hu
  rcases List.mem_or_eq_of_mem_set hu with hu | rfl
  · exact hothers u hu
  · exact ht'

/-- The `.part` file is opened, or a new one takes a path at which nothing is offered. -/
theorem Truthful.opens (h : Truthful ssl host c) (i : Nat) (t : Task)
    (hunoffered : c.files.lookup host.resolve d.partPath = none → Unoffered host c d.partPath)
    (hidle : d.Idle) {resuming : Bool} (hphase : d.phase = .truncating resuming) {contents : Bytes}
    (hprogress : Progress ssl file d contents) : Truthful ssl host (c.apply host i t d .openPart) := by
  refine h.withFiles (fun e he hcorrect => ?_) (running_set (fun u hu => ?_) ⟨hidle, fun _ => ?_, fun _ => ?_⟩)
    (fun path n data hp => ⟨FileSystem.read_create _ _, ?_⟩)
  · by_cases hoffers : true ∈ e.available
    · refine hcorrect.of_same fun n hn => ⟨?_, FileSystem.read_create _ _⟩
      rwa [FileSystem.lookup_create fun hnone => (hunoffered hnone).1 e he hoffers] at hn
    · exact hcorrect.of_none hoffers
  · exact (h.downloads u hu).of_same (FileSystem.length_create_le _) fun _ => FileSystem.read_create _ _
  · exact ⟨_, rfl, FileSystem.create_lt _⟩
  · exact ⟨file, hprogress.opened hphase⟩
  · rw [FileSystem.lookup_create fun hnone => (hunoffered hnone).2 (path, n, data) hp]
    exact id

/-- A download writes its own file, which is offered under its metadata only. -/
theorem Truthful.writes (h : Truthful ssl host c) (i : Nat) (hn : n < c.files.contents.length) (hfile : t.file = some n)
    (hown : WritesOwn host c t) (hidle : d.Idle) {contents : Bytes}
    (hdescribes : Describes ssl t.download.metadata file) (htoward : Toward file (c.files.read t.file) contents)
    (hprogress : d.isFinished = false → Progress ssl file d contents) :
    Truthful ssl host (c.apply host i t d (.write contents)) := by
  obtain ⟨hentries, hdownloads, hhashed⟩ := hown
  have hread : ∀ m, some m ≠ t.file → (c.files.write t.file contents).read (some m) = c.files.read (some m) := by
    intro m hm
    rw [hfile] at hm ⊢
    rw [FileSystem.read_write hn, if_neg hm]
  have hself : (c.files.write t.file contents).read t.file = contents := by
    rw [hfile, FileSystem.read_write hn, if_pos rfl]
  refine h.withFiles (fun e he hcorrect => ?_) (running_set (fun u hu => ?_) ⟨hidle, fun _ => ?_, fun hnot => ?_⟩)
    (fun path m data hp => ⟨hread m (hhashed _ hp), ?_⟩)
  · by_cases hoffers : true ∈ e.available
    · refine ⟨hcorrect.sized, fun j hj m hm => ?_⟩
      rw [FileSystem.lookup_write] at hm
      have hright := hcorrect.right j hj m hm
      by_cases hsame : some m = t.file
      · have hof := hentries e he hoffers (hm.trans hsame)
        have hlt : j < t.download.metadata.pieceCount := by
          rw [← hof, ← hcorrect.sized]
          exact (List.getElem?_eq_some_iff.mp hj).1
        rw [hof, hsame] at hright ⊢
        rw [hself]
        exact hdescribes.hash_of_holds hlt (htoward.agreesOn (hdescribes.holds_of_hash hlt hright))
      · rw [hread m hsame]
        exact hright
    · exact hcorrect.of_none hoffers
  · refine ⟨(h.downloads u hu).idle, fun hopened => ?_, fun hnot => ?_⟩
    · obtain ⟨m, hm, hlt⟩ := (h.downloads u hu).opened hopened
      exact ⟨m, hm, by rwa [FileSystem.length_write]⟩
    · obtain ⟨file', hu'⟩ := (h.downloads u hu).progress hnot
      by_cases hsame : u.file = t.file
      · have hof := hdownloads u hu hnot hsame
        obtain rfl : file' = file := hdescribes.unique (hof ▸ hu'.describes)
        rw [hsame] at hu' ⊢
        rw [hself]
        exact ⟨file', hu'.toward htoward⟩
      · rw [hfile] at hsame ⊢
        rw [FileSystem.read_write hn, if_neg hsame]
        exact ⟨file', hu'⟩
  · exact ⟨n, hfile, by rwa [FileSystem.length_write]⟩
  · change ∃ f, Progress ssl f d ((c.files.write t.file contents).read t.file)
    rw [hself]
    exact ⟨file, hprogress hnot⟩
  · rw [FileSystem.lookup_write]
    exact id

/-- The file that is moved into place is the described one, if anything is offered at that place. -/
theorem Truthful.moves (h : Truthful ssl host c) (i : Nat) (hown : MovesOwn host c t)
    (hdestination : d.destination = t.download.destination)
    (hpart : (c.files.lookup host.resolve t.download.partPath).isSome)
    (hdescribes : Describes ssl t.download.metadata file)
    (hwhole : c.files.read t.file = file) (ht : Running ssl c.files { t with download := d }) :
    Truthful ssl host (c.apply host i t d .rename) := by
  obtain ⟨n, hn⟩ := Option.isSome_iff_exists.mp hpart
  have hpath : d.partPath = t.download.partPath := partPath_eq_iff.mpr hdestination
  rw [← hpath] at hn
  rw [MovesOwn, ← hpath, ← hdestination, hn] at hown
  have hlookup := FileSystem.lookup_rename d.destination hn
  have hlength : c.files.contents.length ≤ (c.files.rename host.resolve d.partPath d.destination).contents.length := by
    rw [FileSystem.contents_rename]
  refine h.withFiles (fun e he hcorrect => ?_) (running_set (fun u hu => ?_) (ht.of_same hlength fun _ => ?_))
    (fun path m data hp => ⟨FileSystem.read_rename _ _ _, fun hold => ?_⟩)
  · by_cases hoffers : true ∈ e.available
    · by_cases hplace : host.resolve e.path = host.resolve d.destination
      · obtain ⟨hof, hmoved⟩ := hown.1 e he hoffers hplace
        refine ⟨hcorrect.sized, fun j hj m hm => ?_⟩
        rw [hlookup, if_pos hplace, hmoved] at hm
        have hlt : j < t.download.metadata.pieceCount := by
          rw [← hof, ← hcorrect.sized]
          exact (List.getElem?_eq_some_iff.mp hj).1
        rw [FileSystem.read_rename, ← hm, hof, hwhole]
        exact hdescribes.hash_of_holds hlt fun j _ _ => rfl
      · refine hcorrect.of_same fun m hm => ⟨?_, FileSystem.read_rename _ _ _⟩
        rw [hlookup, if_neg hplace] at hm
        split at hm
        · simp at hm
        · exact hm
    · exact hcorrect.of_none hoffers
  · exact (h.downloads u hu).of_same hlength fun _ => FileSystem.read_rename _ _ _
  · exact FileSystem.read_rename _ _ _
  · rw [hlookup]
    split
    · next hplace => exact Or.inr (hown.2 _ hp hplace)
    · split
      · exact Or.inl rfl
      · exact hold

/-- A download adds an entry for its own file, with the pieces it has. -/
theorem Truthful.adds (h : Truthful ssl host c) (i : Nat) {e : LocalFile}
    (hown : true ∈ e.available → IsOwn host c t e.path) (hsized : e.available.length = e.metadata.pieceCount)
    (hdescribes : Describes ssl t.download.metadata file)
    (heffect : EffectOk file t.download (c.files.read t.file) (.add e))
    (ht : Running ssl c.files { t with download := d }) : Truthful ssl host (c.apply host i t d (.add e)) := by
  have hcorrect : Correct ssl host c.files e := by
    refine ⟨hsized, fun j hj m hm => ?_⟩
    obtain ⟨hlt, hholds⟩ := heffect.2 j hj
    have hfile : some m = t.file := by
      rcases hown (List.mem_of_getElem? hj) with hnone | hfile
      · simp [hnone] at hm
      · exact hm.symm.trans hfile
    rw [heffect.1, hfile]
    exact hdescribes.hash_of_holds hlt hholds
  refine (h.withDownloads (old_or_running ht)).withShared fun g name e' hfind => ?_
  rw [SharedFiles.find_add] at hfind
  split at hfind
  · rw [← Option.some.inj hfind]
    exact Or.inr hcorrect
  · exact Or.inl (mem_offered.mpr (Or.inl ⟨g, name, hfind⟩))

/-- A download marks a piece in the entry of its own file, or one that is marked already. -/
theorem Truthful.marks (h : Truthful ssl host c) (i : Nat) {piece : Nat}
    (hown : ∀ e ∈ c.shared.find d.group d.name, e.available[piece]? = some false →
      c.files.lookup host.resolve e.path = none ∨
        c.files.lookup host.resolve e.path = t.file ∧ e.metadata = t.download.metadata)
    (hdescribes : Describes ssl t.download.metadata file)
    (heffect : EffectOk file t.download (c.files.read t.file) (.markAvailable piece))
    (ht : Running ssl c.files { t with download := d }) :
    Truthful ssl host (c.apply host i t d (.markAvailable piece)) := by
  refine (h.withDownloads (old_or_running ht)).withShared fun g name e' hfind => ?_
  rw [SharedFiles.find_markAvailable] at hfind
  split at hfind
  · next hkey =>
    obtain ⟨rfl, rfl⟩ := Prod.mk.inj hkey
    obtain ⟨e, he, rfl⟩ := Option.map_eq_some_iff.mp hfind
    have hcorrect := h.entries e (mem_offered.mpr (Or.inl ⟨_, _, he⟩))
    refine Or.inr ⟨by simpa using hcorrect.sized, fun j hj m hm => ?_⟩
    by_cases hold : e.available[j]? = some true
    · exact hcorrect.right j hold m hm
    · have hmarked : piece = j := by
        by_contra hne
        exact hold ((List.getElem?_set_ne hne).symm.trans hj)
      subst hmarked
      have hlt := (List.getElem?_eq_some_iff.mp hj).1
      rw [List.length_set] at hlt
      have hfalse : e.available[piece]? = some false := by
        rw [List.getElem?_eq_getElem hlt] at hold ⊢
        simpa using hold
      obtain ⟨hplace, hof⟩ := (hown e he hfalse).resolve_left fun hnone => by
        have hfound : c.files.lookup host.resolve e.path = some m := hm
        simp [hnone] at hfound
      have hfile : some m = t.file := hm.symm.trans hplace
      change sha1Hex ssl (e.metadata.piece (c.files.read (some m)) piece) = e.metadata.pieceHashes.getD piece []
      rw [hof, hfile]
      exact hdescribes.hash_of_holds heffect.1 heffect.2
  · exact Or.inl (mem_offered.mpr (Or.inl ⟨g, name, hfind⟩))

end Files

section Step

variable {t : Task} {a : Download.Action} {view : View}

theorem Running.step {files : FileSystem} (h : Running ssl files t) (hview : view.file = files.read t.file)
    (hopen : (t.download.step ssl view a).2 ≠ .openPart)
    (hwrite : ∀ contents, (t.download.step ssl view a).2 ≠ .write contents) :
    Running ssl files { t with download := (t.download.step ssl view a).1 } := by
  refine ⟨step_idle view a h.idle, fun hopened => h.opened ((step_opened hopened).resolve_right hopen), fun hnot => ?_⟩
  rw [isFinished_eq] at hnot
  obtain ⟨file, hprogress⟩ := h.progress (by
    rw [isFinished_eq]
    exact (step_phase view a).unfinished_of hnot)
  rw [← hview] at hprogress
  have hnext := (@Progress.step ssl file t.download view a hprogress).2
  have hsame : (t.download.step ssl view a).2.after view.file = view.file := by
    generalize (t.download.step ssl view a).2 = effect at hwrite
    cases effect with
    | write contents => exact absurd rfl (hwrite contents)
    | _ => rfl
  rw [hsame, hview] at hnext
  exact ⟨file, hnext⟩

/-- A download that does something is unfinished. -/
theorem Running.unfinished {files : FileSystem} (h : Running ssl files t)
    (heffect : (t.download.step ssl view a).2 ≠ .none) :
    t.download.isFinished = false := by
  by_contra hfinished
  exact heffect (step_finished h.idle (by simpa using hfinished)).1

/-- What one step of a download keeps. -/
theorem Truthful.downloadStep (h : Truthful ssl host c) {i : Nat}
    (hharmless : ∀ t ∈ c.downloads[i]?, Harmless host c t (t.download.intent a)) :
    Truthful ssl host (c.downloadStep ssl host i a).1 := by
  unfold Client.downloadStep
  split
  · exact h
  · next t hat =>
    dsimp only
    have hrun := h.downloads t (List.mem_of_getElem? hat)
    have hown := hharmless t hat
    have hidle := @step_idle t.download ssl (c.view host t) a hrun.idle
    have hdestination : (t.download.step ssl (c.view host t) a).1.destination = t.download.destination :=
      step_destination rfl
    have hnext := @Running.step ssl t a (c.view host t) c.files hrun rfl
    have hact := @Running.unfinished ssl t a (c.view host t) c.files hrun
    have hintent := @step_intent t.download ssl (c.view host t) a
    have hsubject := @step_subject t.download ssl (c.view host t) a
    obtain ⟨hopening, hmoving⟩ := @step_effect t.download ssl (c.view host t) a
    have hstep : ∀ file, Progress ssl file t.download (c.files.read t.file) →
        EffectOk file t.download (c.files.read t.file) (t.download.step ssl (c.view host t) a).2 ∧
          Progress ssl file (t.download.step ssl (c.view host t) a).1
            ((t.download.step ssl (c.view host t) a).2.after (c.files.read t.file)) :=
      fun file hfile => @Progress.step ssl file t.download (c.view host t) a hfile
    generalize t.download.step ssl (c.view host t) a = result at *
    obtain ⟨d, effect⟩ := result
    dsimp only at *
    have hplan : effect.intent ≠ .none → effect.intent = t.download.intent a := fun hne => hintent.resolve_left hne
    cases effect with
    | none | share => exact h.withDownloads (old_or_running (hnext (by simp) (by simp)))
    | openInput =>
      have ht := hnext (by simp) (by simp)
      exact h.withDownloads (old_or_running ⟨ht.idle, ht.opened, ht.progress⟩)
    | openPart =>
      obtain ⟨file, hfile⟩ := hrun.progress (hact (by simp))
      obtain ⟨resuming, hphase⟩ := hopening rfl
      rw [← hplan (by simp [Effect.intent])] at hown
      have hpart : d.partPath = t.download.partPath := partPath_eq_iff.mpr hdestination
      refine h.opens i t ?_ hidle hphase (hstep file hfile).2
      rw [hpart]
      exact hown
    | write contents =>
      obtain ⟨file, hfile⟩ := hrun.progress (hact (by simp))
      obtain ⟨htoward, hafter⟩ := hstep file hfile
      have hwrites := hplan (by simp [Effect.intent])
      obtain ⟨n, hn, hlt⟩ := hrun.opened (intent_writes hrun.idle hwrites.symm)
      rw [← hwrites] at hown
      exact h.writes i hlt hn hown hidle hfile.describes htoward fun _ => hafter
    | rename =>
      obtain ⟨file, hfile⟩ := hrun.progress (hact (by simp))
      rw [← hplan (by simp [Effect.intent])] at hown
      have hpart : (c.files.lookup host.resolve t.download.partPath).isSome := by
        have hfound := hmoving rfl
        rwa [view, FileSystem.contentsAt, Option.isSome_map] at hfound
      exact h.moves i hown hdestination hpart hfile.describes (hstep file hfile).1 (hnext (by simp) (by simp))
    | add e =>
      obtain ⟨file, hfile⟩ := hrun.progress (hact (by simp))
      have hadds := hplan (by simp [Effect.intent])
      have hsized : e.available.length = e.metadata.pieceCount := by
        rcases (intent_adds hadds.symm).2 with ⟨hphase, rfl⟩ | ⟨-, rfl⟩
        · have hok := hfile.phase
          rw [hphase] at hok
          exact hok.1
        · exact List.length_replicate
      rw [← hadds] at hown
      exact h.adds i hown hsized hfile.describes (hstep file hfile).1 (hnext (by simp) (by simp))
    | markAvailable piece =>
      obtain ⟨file, hfile⟩ := hrun.progress (hact (by simp))
      rw [← hplan (by simp [Effect.intent])] at hown
      refine h.marks i ?_ hfile.describes (hstep file hfile).1 (hnext (by simp) (by simp))
      rw [show d.group = t.download.group from congrArg (fun s => s.1) hsubject,
        show d.name = t.download.name from congrArg (fun s => s.2.1) hsubject]
      exact hown

end Step

theorem Truthful.init (files : FileSystem) : Truthful ssl host (Client.init files) := by
  refine ⟨fun file hfile => ?_, by simp [Client.init], prepared_of_none rfl rfl⟩
  rcases mem_offered.mp hfile with ⟨group, name, hfind⟩ | hpledge
  · simp [Client.init] at hfind
  · simp [Client.init, Prompt.pledge] at hpledge

/-- What one step keeps. -/
theorem Truthful.step (h : Truthful ssl host c) {action : Action} (hlocated : Located ssl action)
    (hkeeps : KeepsOffers host c action) : Truthful ssl host (c.step ssl host action).1 := by
  cases action with
  | type line =>
    simp only [Client.step]
    split
    · exact h.typed line
    · exact h
  | prompt input => exact h.promptStep hlocated
  | main i input => exact h.downloadStep (hkeeps _ rfl)
  | worker i k input => exact h.downloadStep (hkeeps _ rfl)
  | peer => exact h

/-- In every run in which each download keeps to its own file, a piece that an entry offers has its hash in the file at
the entry's path, if there is one. -/
theorem offered_pieces_verified (ssl : OpenSsl) (host : Host) (files : FileSystem) (actions : List Action)
    (hlocated : ∀ action ∈ actions, Located ssl action)
    (hkeeps : Machine.Along (Client.step ssl host) (KeepsOffers host) (Client.init files) actions) :
    let c := Machine.run (Client.step ssl host) (Client.init files) actions
    ∀ group name file, c.shared.find group name = some file → ∀ i, file.available[i]? = some true →
      ∀ contents, c.files.contentsAt host.resolve file.path = some contents →
        file.metadata.pieceHashes[i]? = some (sha1Hex ssl (file.metadata.piece contents i)) := by
  intro c group name file hfind i hi contents hcontents
  have hallowed : Machine.Along (Client.step ssl host) (fun c action => Located ssl action ∧ KeepsOffers host c action)
      (Client.init files) actions := (Machine.along_of_forall fun action haction _ => hlocated action haction).and hkeeps
  have htruthful : Truthful ssl host c :=
    Machine.invariant_along (Truthful.init files) (fun s action hs ha => hs.step ha.1 ha.2) hallowed
  have hcorrect := htruthful.entries file (mem_offered.mpr (Or.inl ⟨group, name, hfind⟩))
  obtain ⟨n, hn, rfl⟩ := FileSystem.contentsAt_eq_some hcontents
  have hlt : i < file.metadata.pieceHashes.length := by
    rw [← pieceCount, ← hcorrect.sized]
    exact (List.getElem?_eq_some_iff.mp hi).1
  rw [hcorrect.right i hi n hn, List.getD_eq_getElem?_getD, List.getElem?_eq_getElem hlt, Option.getD_some]

section Example

def helloAndZeros : Recording where
  sha1 := [(lit "hello", ofHex 20 0xaaf4c61ddcc5e8a2dabede0f3b482cd9aea9434d),
    (List.replicate 5 0, ofHex 20 0xa10909c2cdcaf5adb7e6b092a4faba558b62bd96)]

/-- The file is downloaded to `X`. -/
def downloadsHello : List Action :=
  List.flatten [startsDownload (lit "download_file g f X") helloReply, prepares, finishes (lit "hello")]

/-- The download to `X` has written its piece; before it marks it, one of the same file to `Y` adds its entry. -/
def downloadsTwice : List Action := List.flatten [
  startsDownload (lit "download_file g f X") helloReply, prepares, List.replicate 3 (.worker 0 0 .ok),
  [.worker 0 0 (.reply 1000 none (.success, lit "hello")), .worker 0 0 (.io (.upTo 5)), .worker 0 0 .ok, .worker 0 0 .ok],
  startsDownload (lit "download_file g f Y") helloReply, List.replicate 4 (.main 1 .ok),
  [.main 1 (.reply 1000 none (.success, [1])), .main 1 .ok, .main 1 .ok, .worker 0 0 .ok]]

/-- The answers of the tracker in a run. -/
def replies (actions : List Action) : List (Option Bytes) :=
  actions.filterMap fun action =>
    match action with
    | .prompt (.reply reply) => some reply
    | _ => none

theorem located_hello {actions : List Action} (h : ∀ reply ∈ replies actions, Input.reply reply = helloReply) :
    ∀ action ∈ actions, Located helloAndZeros.replay action := by
  rintro action haction reply metadata seeders rfl hlocate
  have hmetadata : (TrackerClient.locate 0 reply).toOption.map Prod.fst =
      some (hash helloAndZeros.replay (lit "hello")) := by
    obtain rfl := Input.reply.inj (h reply (List.mem_filterMap.mpr ⟨_, haction, rfl⟩))
    decide +kernel
  rw [hlocate] at hmetadata
  obtain rfl : metadata = hash helloAndZeros.replay (lit "hello") := Option.some.inj hmetadata
  exact (Attempt.describes_hash (by decide) (Attempt.uniquePieces_replay (by decide +kernel) (by decide +kernel)
    (by decide +kernel) (by decide +kernel))).blocks

theorem offered_pieces_verified_hello :
    let c := Machine.run (Client.step helloAndZeros.replay exampleHost) (Client.init noFiles) downloadsHello
    ∃ file, c.shared.find (lit "g") (lit "f") = some file ∧ file.available = [true] ∧
      c.files.contentsAt exampleHost.resolve file.path = some (lit "hello") ∧
      file.metadata.pieceHashes[0]? = some (sha1Hex helloAndZeros.replay (file.metadata.piece (lit "hello") 0)) := by
  intro c
  have hend : ((c.shared.find (lit "g") (lit "f")).map fun file => (file.path, file.available),
      c.files.contentsAt exampleHost.resolve (lit "X")) = (some (lit "X", [true]), some (lit "hello")) := by
    decide +kernel
  obtain ⟨hentry, hcontents⟩ := Prod.mk.inj hend
  obtain ⟨file, hfind, heq⟩ := Option.map_eq_some_iff.mp hentry
  obtain ⟨hpath, havailable⟩ := Prod.mk.inj heq
  rw [← hpath] at hcontents
  exact ⟨file, hfind, havailable, hcontents, offered_pieces_verified helloAndZeros.replay exampleHost noFiles
    downloadsHello (located_hello (by decide +kernel)) (by decide +kernel) _ _ file hfind 0 (by rw [havailable]; rfl) _
    hcontents⟩

/-- The entry for `Y.part` offers the piece that is in `X.part`, while `Y.part` is still empty. -/
theorem offered_piece_missing :
    let c := Machine.run (Client.step helloAndZeros.replay exampleHost) (Client.init noFiles) downloadsTwice
    (∀ action ∈ downloadsTwice, Located helloAndZeros.replay action) ∧
      ∃ file, c.shared.find (lit "g") (lit "f") = some file ∧ file.available[0]? = some true ∧
        c.files.contentsAt exampleHost.resolve file.path = some (List.replicate 5 0) ∧
        file.metadata.pieceHashes[0]? ≠
          some (sha1Hex helloAndZeros.replay (file.metadata.piece (List.replicate 5 0) 0)) := by
  intro c
  have hend : ((c.shared.find (lit "g") (lit "f")).map fun file => (file.path, file.available, file.metadata),
      c.files.contentsAt exampleHost.resolve (lit "Y.part")) =
      (some (lit "Y.part", [true], hash helloAndZeros.replay (lit "hello")), some (List.replicate 5 0)) := by
    decide +kernel
  obtain ⟨hentry, hcontents⟩ := Prod.mk.inj hend
  obtain ⟨file, hfind, heq⟩ := Option.map_eq_some_iff.mp hentry
  obtain ⟨hpath, hrest⟩ := Prod.mk.inj heq
  obtain ⟨havailable, hmetadata⟩ := Prod.mk.inj hrest
  rw [← hpath] at hcontents
  refine ⟨located_hello (by decide +kernel), file, hfind, by rw [havailable]; rfl, hcontents, ?_⟩
  rw [hmetadata]
  decide +kernel

end Example

end Client

end TorrentAtlas
