import TorrentAtlas.Client
import TorrentAtlas.PieceSlots

/-!
# Which download owns which path

A download writes its `.part` file until it moves it to the destination, and from
then on the destination is to stay. Paths are compared as strings. A new download
is checked against the destinations of unfinished ones only, so nothing keeps its
destination and `.part` file away from the derived paths of the others.
-/
namespace TorrentAtlas

open Encoding Crypto

namespace Download

/-- The file is still at its `.part` path and the download may go on to write it. -/
def Phase.isActive : Phase → Bool
  | .sharingAgain | .adding | .finishing | .finished _ => false
  | _ => true

def Phase.isFinished : Phase → Bool
  | .finished _ => true
  | _ => false

/-- The workers exist during `fetchPieces` only. -/
def Idle (d : Download) : Prop := d.phase ≠ .fetching → ∀ w ∈ d.workers, w = .stopped

/-- The paths an effect truncates, writes or renames. -/
def touches (d : Download) : Effect → List Bytes
  | .openPart | .write _ => [d.partPath]
  | .rename => [d.partPath, d.destination]
  | _ => []

/-- How a phase may change. -/
inductive Phase.Step : Phase → Phase → Prop
  | same (p : Phase) : Phase.Step p p
  | active {p p' : Phase} (h : p.isActive = true) (h' : p'.isActive = true) : Phase.Step p p'
  | failed {p : Phase} (h : p.isActive = true) (reason : Bytes) : Phase.Step p (.finished (some reason))
  | moved : Phase.Step .moving .sharingAgain
  | shared : Phase.Step .sharingAgain .adding
  | added : Phase.Step .adding .finishing
  | done : Phase.Step .finishing (.finished none)

variable {d : Download} {ssl : OpenSsl}

theorem bitmapStep_phase {seeder : Nat} (input : Input) (hphase : d.phase = .asking seeder) :
    (d.bitmapStep seeder input).phase.isActive = true := by
  unfold bitmapStep
  split
  · rfl
  · split
    · dsimp only
      split <;> rfl
    · rw [hphase]
      rfl

theorem mainStep_phase (view : View) (input : Input) : Phase.Step d.phase (d.mainStep ssl view input).1.phase := by
  have hcases := mainStep_cases ssl d view input
  generalize d.mainStep ssl view input = result at hcases ⊢
  cases hcases with
  | stay => exact .same _
  | prepare hphase =>
    rcases @prepareStep_phase d ssl view.file _ _ _ input hphase with ⟨piece, data, hnext⟩ | hnext
    · rw [hphase, hnext]
      exact .active rfl rfl
    · rw [hphase, hnext]
      exact .active rfl rfl
  | bitmap hphase =>
    have hnext := bitmapStep_phase input hphase
    rw [hphase]
    exact .active rfl hnext
  | notOpened hphase | notTruncated hphase | giveUp hphase | notChecked hphase | notHashed hphase | mismatch hphase
  | notMoved hphase =>
    rw [hphase]
    exact .failed rfl _
  | look hphase | opened hphase | truncated hphase | publish hphase | start hphase | join hphase | check hphase
  | hashOn hphase | accept hphase =>
    rw [hphase]
    exact .active rfl rfl
  | move hphase =>
    rw [hphase]
    exact .moved
  | shareAgain hphase =>
    rw [hphase]
    exact .shared
  | add hphase =>
    rw [hphase]
    exact .added
  | finish hphase =>
    rw [hphase]
    exact .done

/-- One step of a download moves its phase on, and only after its file may be in place does it become final. -/
theorem step_phase (view : View) (action : Action) : Phase.Step d.phase (d.step ssl view action).1.phase := by
  cases action with
  | cancel => exact .same _
  | main input => exact mainStep_phase view input
  | worker k input =>
    have hframe := (@workerStep_frame d ssl view.file k input).2.1
    simp only [step, hframe]
    exact .same _

/-- The main thread starts workers in one place and otherwise leaves them alone. -/
theorem mainStep_workers (view : View) (input : Input) :
    (d.mainStep ssl view input).1.workers = d.workers ∨ (d.mainStep ssl view input).1.phase = .fetching := by
  have hcases := mainStep_cases ssl d view input
  generalize d.mainStep ssl view input = result at hcases ⊢
  cases hcases with
  | prepare => exact Or.inl (prepareStep_frame _ _ _ _ _).2.2
  | bitmap => exact Or.inl (bitmapStep_frame _ _).2
  | start => exact Or.inr rfl
  | _ => exact Or.inl rfl

/-- `fetchPieces` ends when its workers have. -/
theorem mainStep_joins {view : View} {input : Input} (hphase : d.phase = .fetching) :
    (d.mainStep ssl view input).1 = d ∨ ∀ w ∈ d.workers, w = .stopped := by
  simp only [mainStep, hphase]
  split
  · exact Or.inl rfl
  · next hstopped => exact Or.inr (by simpa using hstopped)

theorem mainStep_idle (view : View) (input : Input) (h : d.Idle) : (d.mainStep ssl view input).1.Idle := by
  intro hnext w hw
  rcases mainStep_workers view input with hsame | hfetching
  · rw [hsame] at hw
    by_cases hphase : d.phase = .fetching
    · rcases @mainStep_joins d ssl view input hphase with hstay | hstopped
      · rw [hstay] at hnext
        exact absurd hphase hnext
      · exact hstopped w hw
    · exact h hphase w hw
  · exact absurd hfetching hnext

theorem step_idle (view : View) (action : Action) (h : d.Idle) : (d.step ssl view action).1.Idle := by
  cases action with
  | cancel => exact h
  | main input => exact mainStep_idle view input h
  | worker k input =>
    by_cases hphase : d.phase = .fetching
    · intro hnext
      have hframe := (@workerStep_frame d ssl view.file k input).2.1
      exact absurd (hframe.trans hphase) hnext
    · simp only [step]
      rw [workerStep_idle view.file k input (h hphase)]
      exact h

/-- The main thread touches the `.part` file while it prepares it and when it moves it. -/
theorem mainStep_touches {view : View} {input : Input} {path : Bytes}
    (hpath : path ∈ d.touches (d.mainStep ssl view input).2) : d.phase.isActive = true := by
  have hcases := mainStep_cases ssl d view input
  generalize d.mainStep ssl view input = result at hcases hpath
  cases hcases with
  | opened hphase | truncated hphase | move hphase =>
    rw [hphase]
    rfl
  | _ => simp [touches] at hpath

/-- Only an active download touches files, and only at its own paths. -/
theorem step_touches {view : View} {action : Action} (h : d.Idle) {path : Bytes}
    (hpath : path ∈ d.touches (d.step ssl view action).2) : d.phase.isActive = true ∧
      (path = d.partPath ∨ path = d.destination) := by
  constructor
  · cases action with
    | cancel => simp [step, touches] at hpath
    | main input => exact mainStep_touches hpath
    | worker k input =>
      by_cases hphase : d.phase = .fetching
      · rw [hphase]
        rfl
      · simp only [step] at hpath
        rw [workerStep_idle view.file k input (h hphase)] at hpath
        simp [touches] at hpath
  · generalize (d.step ssl view action).2 = effect at hpath
    cases effect with
    | openPart => exact Or.inl (List.mem_singleton.mp hpath)
    | write contents => exact Or.inl (List.mem_singleton.mp hpath)
    | rename =>
      rcases List.mem_cons.mp hpath with hpart | hdestination
      · exact Or.inl hpart
      · exact Or.inr (List.mem_singleton.mp hdestination)
    | _ => simp [touches] at hpath

theorem Phase.Step.active_of {p p' : Phase} (h : Phase.Step p p') (hactive : p'.isActive = true) :
    p.isActive = true := by
  cases h with
  | same => exact hactive
  | active h => exact h
  | _ => simp [Phase.isActive] at hactive

theorem Phase.Step.unfinished_of {p p' : Phase} (h : Phase.Step p p') (hnot : p'.isFinished = false) :
    p.isFinished = false := by
  cases h with
  | same => exact hnot
  | active h => cases p <;> simp_all [Phase.isActive, Phase.isFinished]
  | failed h => simp [Phase.isFinished] at hnot
  | _ => rfl

theorem Phase.Step.moved_of {p p' : Phase} (h : Phase.Step p p') (hmoved : p'.isMoved = true) :
    p.isMoved = true ∨ p = .moving := by
  cases h with
  | same => exact Or.inl hmoved
  | active h h' => cases p' <;> simp_all [Phase.isActive, Phase.isMoved]
  | failed => simp [Phase.isMoved] at hmoved
  | moved => exact Or.inr rfl
  | _ => exact Or.inl rfl

theorem unfinished_of_active {p : Phase} (h : p.isActive = true) : p.isFinished = false := by
  cases p <;> simp_all [Phase.isActive, Phase.isFinished]

theorem isFinished_eq (d : Download) : d.isFinished = d.phase.isFinished := by
  unfold isFinished Phase.isFinished
  cases d.phase <;> rfl

/-- The paths that `d` may still touch are none of those that `e` owns. -/
structure Apart (d e : Download) : Prop where
  unfinished : d.phase.isActive = true → e.phase.isFinished = false →
    d.partPath ≠ e.partPath ∧ d.destination ≠ e.partPath
  moved : d.phase.isActive = true → e.phase.isMoved = true →
    d.partPath ≠ e.destination ∧ d.destination ≠ e.destination

theorem partPath_eq_iff {d e : Download} : d.partPath = e.partPath ↔ d.destination = e.destination :=
  List.append_left_inj _

variable {d' e : Download}

theorem Apart.left (h : Apart d e) (hstep : Phase.Step d.phase d'.phase) (hsame : d'.destination = d.destination) :
    Apart d' e := by
  have hpart : d'.partPath = d.partPath := partPath_eq_iff.mpr hsame
  refine ⟨fun hactive => ?_, fun hactive => ?_⟩
  · rw [hpart, hsame]
    exact h.unfinished (hstep.active_of hactive)
  · rw [hpart, hsame]
    exact h.moved (hstep.active_of hactive)

/-- When `d` is moved into place, no other active download is about to touch that place. -/
theorem Apart.right (h : Apart e d) (h' : Apart d e) (hstep : Phase.Step d.phase d'.phase)
    (hsame : d'.destination = d.destination) : Apart e d' := by
  have hpart : d'.partPath = d.partPath := partPath_eq_iff.mpr hsame
  refine ⟨fun hactive hnot => ?_, fun hactive hmoved => ?_⟩
  · rw [hpart]
    exact h.unfinished hactive (hstep.unfinished_of hnot)
  · rw [hsame]
    rcases hstep.moved_of hmoved with hmoved | hmoving
    · exact h.moved hactive hmoved
    · have hd : d.phase.isActive = true := by rw [hmoving]; rfl
      obtain ⟨hparts, hplace⟩ := h'.unfinished hd (unfinished_of_active hactive)
      exact ⟨hplace.symm, fun heq => hparts (partPath_eq_iff.mpr heq.symm)⟩

end Download

namespace Client

open Download

/-- The path of the download that is about to be created. -/
def Prompt.chosen : Prompt → Option Bytes
  | .locating _ _ path | .starting _ _ path _ _ => some path
  | _ => none

/-- A new download to `path` and the download `d` leave each other's files alone. -/
structure Free (path : Bytes) (d : Download) : Prop where
  part : d.isFinished = false → path ≠ d.partPath
  destination : d.phase.isActive = true → path ++ lit ".part" ≠ d.destination
  moved : d.phase.isMoved = true → path ++ lit ".part" ≠ d.destination ∧ path ≠ d.destination

instance (path : Bytes) (d : Download) : Decidable (Free path d) :=
  decidable_of_iff ((d.isFinished = false → path ≠ d.partPath) ∧
      (d.phase.isActive = true → path ++ lit ".part" ≠ d.destination) ∧
      (d.phase.isMoved = true → path ++ lit ".part" ≠ d.destination ∧ path ≠ d.destination))
    ⟨fun h => ⟨h.1, h.2.1, h.2.2⟩, fun h => ⟨h.part, h.destination, h.moved⟩⟩

/-- The path of the download that a step adds to the list. -/
def created (c : Client) : Action → Option Bytes
  | .prompt _ =>
    match c.prompt with
    | .starting _ _ path _ _ => some path
    | _ => none
  | _ => none

/-- Whenever a download is added to the list, its path is free. -/
def StartsFree (c : Client) (action : Action) : Prop :=
  ∀ path ∈ created c action, ∀ t ∈ c.downloads, Free path t.download

instance (c : Client) (action : Action) : Decidable (StartsFree c action) :=
  inferInstanceAs (Decidable (∀ path ∈ created c action, ∀ t ∈ c.downloads, Free path t.download))

/-- Nothing that a step truncates, writes or renames belongs to another download: it is not the `.part` file of an
unfinished one nor the destination of one that has been moved there. -/
def KeepsOthers (e : Event Client Action Output) : Prop :=
  ∀ effect, e.output = .effect effect → ∀ i a t, e.input.download = some (i, a) → e.before.downloads[i]? = some t →
    ∀ j u, e.before.downloads[j]? = some u → j ≠ i → ∀ path ∈ t.download.touches effect,
      (u.download.isFinished = false → path ≠ u.download.partPath) ∧
      (u.download.phase.isMoved = true → path ≠ u.download.destination)

structure Owned (c : Client) : Prop where
  idle : ∀ t ∈ c.downloads, t.download.Idle
  apart : ∀ (i j : Nat) (t u : Task), i ≠ j → c.downloads[i]? = some t → c.downloads[j]? = some u →
    Apart t.download u.download
  chosen : ∀ path, c.prompt.chosen = some path → ∀ t ∈ c.downloads, t.download.phase.isFinished = false →
    t.download.destination ≠ path

variable {ssl : OpenSsl} {host : Host} {c : Client}

theorem typed_chosen (line : Bytes) (h : c.prompt = .reading) : (c.typed line).1.prompt.chosen = none := by
  have hcases := typed_cases c line
  generalize c.typed line = result at hcases ⊢
  cases hcases with
  | stay =>
    rw [h]
    rfl
  | _ => rfl

/-- A destination is chosen after a look at the unfinished downloads, and forgotten when its download is created. -/
theorem promptStep_chosen {input : Input} {path : Bytes} (h : (c.promptStep ssl host input).1.prompt.chosen = some path) :
    (c.promptStep ssl host input).1.downloads = c.downloads ∧ (c.prompt.chosen = some path ∨
      ∀ t ∈ c.downloads, t.download.phase.isFinished = false → t.download.destination ≠ path) := by
  have hcases := promptStep_cases ssl host c input
  generalize c.promptStep ssl host input = result at hcases h ⊢
  cases hcases with
  | stay => exact ⟨rfl, Or.inl h⟩
  | check hprompt hnone =>
    obtain rfl := Option.some.inj h
    refine ⟨rfl, Or.inr fun t ht hnot heq => hnone (List.any_eq_true.mpr ⟨t, ht, ?_⟩)⟩
    simp [isFinished_eq, hnot, heq]
  | locate hprompt =>
    obtain rfl := Option.some.inj h
    exact ⟨rfl, Or.inl (by rw [hprompt]; rfl)⟩
  | _ => simp [Prompt.chosen] at h

theorem step_chosen {action : Action} {path : Bytes} (h : (c.step ssl host action).1.prompt.chosen = some path) :
    c.prompt.chosen = some path ∨
      ∀ t ∈ c.downloads, t.download.phase.isFinished = false → t.download.destination ≠ path := by
  cases action with
  | type line =>
    simp only [step] at h
    split at h
    · next hreading =>
      rw [typed_chosen line hreading] at h
      simp at h
    · exact Or.inl h
  | prompt input => exact (promptStep_chosen h).2
  | main i input => exact Or.inl (by rwa [step, downloadStep_prompt] at h)
  | worker i k input => exact Or.inl (by rwa [step, downloadStep_prompt] at h)
  | peer => exact Or.inl h

theorem step_destination {d d' : Download} {view : View} {action : Download.Action}
    (h : d' = (d.step ssl view action).1) : d'.destination = d.destination := by
  have hsubject := @step_subject d ssl view action
  rw [← h] at hsubject
  exact congrArg (fun s => s.2.2.1) hsubject

/-- A new download to a free path, and the downloads before it. -/
theorem Free.apart_old {path group name : Bytes} {metadata : FileMetadata} {seeders : List SeederAccess} {d : Download}
    (h : Free path d) (hchosen : d.phase.isFinished = false → d.destination ≠ path) :
    Apart d (create group name path metadata seeders) := by
  refine ⟨fun hactive _ => ⟨fun heq => ?_, fun heq => h.destination hactive heq.symm⟩, fun _ hmoved => ?_⟩
  · exact hchosen (unfinished_of_active hactive) (partPath_eq_iff.mp heq)
  · simp [create, Phase.isMoved] at hmoved

theorem Free.apart_new {path group name : Bytes} {metadata : FileMetadata} {seeders : List SeederAccess} {d : Download}
    (h : Free path d) (hchosen : d.phase.isFinished = false → d.destination ≠ path) :
    Apart (create group name path metadata seeders) d := by
  refine ⟨fun _ hnot => ⟨fun heq => ?_, ?_⟩, fun _ hmoved => h.moved hmoved⟩
  · exact hchosen hnot (partPath_eq_iff.mp heq).symm
  · exact h.part (by rw [isFinished_eq]; exact hnot)

theorem Owned.init (files : FileSystem) : Owned (Client.init files) :=
  ⟨by simp [Client.init], by simp [Client.init], by simp [Client.init]⟩

/-- What one step keeps. -/
theorem Owned.step {action : Action} (h : Owned c) (hfree : StartsFree c action) :
    Owned (c.step ssl host action).1 := by
  have hmoves := @step_moves ssl host c action
  generalize hnext : (c.step ssl host action).1.downloads = downloads at hmoves
  refine ⟨?_, ?_, ?_⟩
  · rw [hnext]
    cases hmoves with
    | same => exact h.idle
    | one i t t' view a hat hstep =>
      intro u hu
      rcases List.mem_or_eq_of_mem_set hu with hu | rfl
      · exact h.idle u hu
      · rw [hstep]
        exact step_idle view a (h.idle t (List.mem_of_getElem? hat))
    | new group name path metadata seeders input hprompt haction =>
      intro u hu
      rcases List.mem_append.mp hu with hu | hu
      · exact h.idle u hu
      · rw [List.mem_singleton.mp hu]
        exact fun _ w hw => by simp [create] at hw
  · rw [hnext]
    cases hmoves with
    | same => exact h.apart
    | one k t t' view a hat hstep =>
      have hphase : Phase.Step t.download.phase t'.download.phase := by
        rw [hstep]
        exact step_phase view a
      have hsame := step_destination hstep
      have hk : k < c.downloads.length := (List.getElem?_eq_some_iff.mp hat).1
      intro i j u v hne hu hv
      by_cases hi : k = i
      · subst hi
        rw [List.getElem?_set_self hk] at hu
        rw [List.getElem?_set_ne hne] at hv
        obtain rfl := Option.some.inj hu
        exact (h.apart k j t v hne hat hv).left hphase hsame
      · rw [List.getElem?_set_ne hi] at hu
        by_cases hj : k = j
        · subst hj
          rw [List.getElem?_set_self hk] at hv
          obtain rfl := Option.some.inj hv
          exact (h.apart i k u t hne hu hat).right (h.apart k i t u (Ne.symm hne) hat hu) hphase hsame
        · rw [List.getElem?_set_ne hj] at hv
          exact h.apart i j u v hne hu hv
    | new group name path metadata seeders input hprompt haction =>
      have hnew : ∀ u ∈ c.downloads, Free path u.download := by
        subst haction
        exact hfree path (by simp [created, hprompt])
      have hchosen := h.chosen path (by rw [hprompt]; rfl)
      intro i j u v hne hu hv
      rw [List.getElem?_append] at hu hv
      split at hu
      · next hi =>
        split at hv
        · exact h.apart i j u v hne hu hv
        · next hj =>
          rw [List.getElem?_singleton] at hv
          split at hv
          · obtain rfl := Option.some.inj hv
            exact (hnew u (List.mem_of_getElem? hu)).apart_old (hchosen u (List.mem_of_getElem? hu))
          · simp at hv
      · next hi =>
        rw [List.getElem?_singleton] at hu
        split at hu
        · obtain rfl := Option.some.inj hu
          split at hv
          · exact (hnew v (List.mem_of_getElem? hv)).apart_new (hchosen v (List.mem_of_getElem? hv))
          · rw [List.getElem?_singleton] at hv
            split at hv
            · omega
            · simp at hv
        · simp at hu
  · intro path hpath
    have hold : ∀ t ∈ c.downloads, t.download.phase.isFinished = false → t.download.destination ≠ path := by
      rcases step_chosen hpath with hchosen | hlooked
      · exact h.chosen path hchosen
      · exact hlooked
    rw [hnext]
    cases hmoves with
    | same => exact hold
    | one k t t' view a hat hstep =>
      intro u hu hnot
      rcases List.mem_or_eq_of_mem_set hu with hu | rfl
      · exact hold u hu hnot
      · rw [step_destination hstep]
        rw [hstep] at hnot
        exact hold t (List.mem_of_getElem? hat) ((step_phase view a).unfinished_of hnot)
    | new group name path metadata seeders input hprompt haction =>
      subst haction
      simp [Client.step, promptStep, hprompt, Prompt.chosen] at hpath

/-- A download's step leaves the files of all others alone. -/
theorem Owned.keepsOthers (h : Owned c) (action : Action) :
    KeepsOthers (Machine.event (Client.step ssl host) c action) := by
  intro effect houtput i a t hdownload hat j u hu hne path hpath
  obtain ⟨i', a', t', hdownload', hat', heffect⟩ := @of_step_effect ssl host c _ _ houtput
  obtain ⟨rfl, rfl⟩ := Prod.mk.inj (Option.some.inj (hdownload.symm.trans hdownload'))
  obtain rfl := Option.some.inj (hat.symm.trans hat')
  rw [heffect] at hpath
  obtain ⟨hactive, hplace⟩ := step_touches (h.idle t (List.mem_of_getElem? hat)) hpath
  have hapart := h.apart i j t u (Ne.symm hne) hat hu
  refine ⟨fun hnot => ?_, fun hmoved => ?_⟩
  · have hkept := hapart.unfinished hactive (by rw [← isFinished_eq]; exact hnot)
    rcases hplace with rfl | rfl
    · exact hkept.1
    · exact hkept.2
  · have hkept := hapart.moved hactive hmoved
    rcases hplace with rfl | rfl
    · exact hkept.1
    · exact hkept.2

/-- In every run in which each new download's paths are free, no download touches what belongs to another. -/
theorem downloads_keep_apart (ssl : OpenSsl) (host : Host) (files : FileSystem) (actions : List Action)
    (hfree : Machine.Along (Client.step ssl host) StartsFree (Client.init files) actions) :
    ∀ e ∈ Machine.events (Client.step ssl host) (Client.init files) actions, KeepsOthers e := by
  intro e he
  obtain ⟨howned, -, hevent⟩ := Machine.events_along (Owned.init files) (fun _ _ h ha => h.step ha) hfree e he
  rw [hevent]
  exact howned.keepsOthers e.input

section Example

def exampleHost : Host := ⟨⟨lit "10.0.0.1", 6881⟩, List.replicate 32 7, id⟩

/-- A one-byte file is downloaded to the first destination and then an empty one to the second. -/
def twoDownloads (first second : Bytes) : List Action := List.flatten [
  startsDownload first
    (exampleReply (lit "1 86f7e437faa5a7fce15d1ddcb9eaeaea377667b8 86f7e437faa5a7fce15d1ddcb9eaeaea377667b8")),
  prepares, finishes (lit "a"), startsDownload second (exampleReply (lit "0 da39a3ee5e6b4b0d3255bfef95601890afd80709 -")),
  List.replicate 2 (.main 1 .ok)]

def safeRun : List Action := twoDownloads (lit "download_file g f X") (lit "download_file g e Y")

/-- The `.part` file of `X` is the file that the first download completed. -/
def unsafeRun : List Action := twoDownloads (lit "download_file g f X.part") (lit "download_file g e X")

/-- The first file is moved into place, and no step of either download touches what belongs to the other. -/
theorem downloads_keep_apart_safe :
    (∃ e ∈ Machine.events (Client.step sha1Recording.replay exampleHost) (Client.init noFiles) safeRun,
      e.output = .effect .rename) ∧
    ∀ e ∈ Machine.events (Client.step sha1Recording.replay exampleHost) (Client.init noFiles) safeRun, KeepsOthers e :=
  ⟨by decide +kernel, downloads_keep_apart sha1Recording.replay exampleHost noFiles safeRun (by decide +kernel)⟩

/-- A write of the second download to `X.part` is a write to the completed first one. -/
theorem not_keepsOthers {c : Client} {contents : Bytes}
    (hstate : c.downloads.map (fun t : Task => (t.download.destination, t.download.phase)) =
      [(lit "X.part", .finished none), (lit "X", .truncating true)])
    (houtput : (c.step ssl host (.main 1 .ok)).2 = .effect (.write contents)) :
    ¬ KeepsOthers (Machine.event (Client.step ssl host) c (.main 1 .ok)) := by
  intro hkeeps
  have hat : ∀ (k : Nat) (x : Bytes × Phase),
      ([(lit "X.part", .finished none), (lit "X", .truncating true)] : List (Bytes × Phase))[k]? = some x →
        ∃ t, c.downloads[k]? = some t ∧ (t.download.destination, t.download.phase) = x := by
    intro k x hx
    rw [← hstate, List.getElem?_map] at hx
    exact Option.map_eq_some_iff.mp hx
  obtain ⟨t, ht, htask⟩ := hat 1 _ rfl
  obtain ⟨u, hu, hother⟩ := hat 0 _ rfl
  obtain ⟨hdestination, -⟩ := Prod.mk.inj htask
  obtain ⟨hplace, hphase⟩ := Prod.mk.inj hother
  have hpath : lit "X.part" ∈ t.download.touches (.write contents) := by
    rw [touches, partPath, hdestination]
    decide
  exact (hkeeps _ houtput 1 (.main .ok) t rfl ht 0 u hu (by decide) _ hpath).2 (by rw [hphase]; rfl) hplace.symm

/-- The next step of the second download cuts the completed file of the first to nothing. -/
theorem downloads_collide :
    ∃ e ∈ Machine.events (Client.step sha1Recording.replay exampleHost) (Client.init noFiles)
      (unsafeRun ++ [.main 1 .ok]), ¬ KeepsOthers e := by
  rw [Machine.events_concat]
  refine ⟨_, List.mem_append_right _ (List.mem_singleton_self _), ?_⟩
  exact @not_keepsOthers sha1Recording.replay exampleHost
    (Machine.run (Client.step sha1Recording.replay exampleHost) (Client.init noFiles) unsafeRun) [] (by decide +kernel)
    (by decide +kernel)

end Example

end Client

end TorrentAtlas
