import Mathlib.Data.List.Sort
import TorrentAtlas.PeerTicket
import TorrentAtlas.PieceFile
import TorrentAtlas.SharedFiles

/-!
# One download (`client/download/download.{hpp,cpp}`)

`Download::run` and its workers are threads. A download is cut into steps at every
access to something shared: a system call, a field that another thread uses, the
network. What a step does outside the download is its `Effect`. Pauses between
passes change nothing and are left out; `share` goes to the tracker and its reply
is ignored.
-/
namespace TorrentAtlas

open Encoding Crypto

/-- The outcome of one request to a peer. -/
inductive TransferResult
  | success
  | networkFailure
  | authenticationFailure
  | integrityFailure
  | unavailable
  deriving DecidableEq, Repr

/-- What `PeerClient::request` returned and wrote to `reply`. -/
abbrev Outcome := TransferResult × Bytes

namespace PeerClient

def fetchBitmap (pieceCount : Nat) (outcome : Outcome) : TransferResult × List Bool :=
  match outcome with
  | (.success, reply) =>
    if reply.length ≠ pieceCount then (.authenticationFailure, []) else (.success, reply.map (fun piece => piece != 0))
  | (result, _) => (result, [])

def fetchPiece (ssl : OpenSsl) (expectedHash : Bytes) (outcome : Outcome) : Outcome :=
  match outcome with
  | (.success, data) => if sha1Hex ssl data ≠ expectedHash then (.integrityFailure, data) else (.success, data)
  | (result, data) => (result, data)

end PeerClient

namespace Download

def MAX_THREADS : Nat := 8
def PASSES_PER_PIECE : Nat := 3

/-- Fetch new tickets when the current one expires within this many seconds. -/
def TICKET_MARGIN_SECONDS : Int := 60

/-- Where `run` stands. -/
inductive Phase
  /-- `prepare`: the `.part` file is about to be looked up, opened, cut to size. -/
  | starting
  | opening (resuming : Bool)
  | truncating (resuming : Bool)
  /-- `prepare` is reading a piece and has `data` of it. -/
  | reading (resuming : Bool) (piece : Nat) (data : Bytes)
  /-- `fetchBitmaps` is asking a seeder. -/
  | asking (seeder : Nat)
  | publishing
  | sharing
  | fetching
  /-- `complete`: the `.part` file is about to be opened for hashing. -/
  | checking
  | hashing (data : Bytes)
  | moving
  | sharingAgain
  | adding
  | finishing
  /-- `finish`, with the reason of a failure. -/
  | finished (failure : Option Bytes)
  deriving DecidableEq, Repr

/-- Where a worker thread of `fetchPieces` stands. -/
inductive Worker
  /-- About to read `cancelled_` in the loop of `fetchPieces`, then to claim a position. -/
  | looping
  | claiming
  /-- In `fetchPiece`: at the head of its loop, waiting for a seeder, in `PieceFile::write`. -/
  | attempting (piece attempt : Nat)
  | requesting (piece attempt seeder : Nat)
  | writing (piece attempt : Nat) (data : Bytes) (done : Nat)
  /-- In `markVerified`: about to count the piece, then to publish it. -/
  | written (piece : Nat)
  | counted (piece : Nat)
  /-- `fetchPiece` has returned false; about to read `cancelled_`, then to set `failed`. -/
  | returned (piece : Nat)
  | recording (piece : Nat)
  | stopped
  deriving DecidableEq, Repr

/-- What a step does to the files, the table of shared files or the tracker. -/
inductive Effect
  | none
  /-- Opens the `.part` file for writing, creating it if it is not there. -/
  | openPart
  /-- Leaves the open file with these contents. -/
  | write (contents : Bytes)
  /-- Opens the `.part` file for hashing. -/
  | openInput
  | rename
  | add (file : LocalFile)
  | markAvailable (piece : Nat)
  | share
  deriving DecidableEq, Repr

/-- What a step finds outside: the file at the `.part` path, the contents of the file that
`prepare` opened and of the file that `hash` opened. -/
structure View where
  part : Option Bytes
  file : Bytes
  input : Bytes

/-- How the outside answers a step. -/
inductive Input
  | ok
  | fail
  | io (outcome : Transfer)
  /-- A peer's answer, with the clock and the tracker's answer if tickets were to be renewed. -/
  | reply (now : Int) (located : Option (List SeederAccess)) (outcome : Outcome)
  deriving DecidableEq, Repr

inductive Action
  | cancel
  | main (input : Input)
  | worker (k : Nat) (input : Input)
  deriving DecidableEq, Repr

end Download

open Download in
structure Download where
  group : Bytes
  name : Bytes
  destination : Bytes
  metadata : FileMetadata
  seeders : List SeederAccess
  phase : Phase
  verified : List Bool
  seederBitmaps : List (List Bool)
  /-- How many seeders have each piece. -/
  rarity : List Nat
  /-- The locals of `fetchPieces`. -/
  order : List Nat
  next : Nat
  pieceFailed : Bool
  workers : List Worker
  cancelled : Bool
  /-- The pieces that `completed_` has counted. -/
  completed : List Nat
  resumedPieces : Nat
  integrityFailures : Nat
  deriving DecidableEq, Repr

namespace Download

def create (group name destination : Bytes) (metadata : FileMetadata) (seeders : List SeederAccess) : Download :=
  ⟨group, name, destination, metadata, seeders, .starting, [], [], [], [], 0, false, [], false, [], 0, 0⟩

variable (d : Download)

def partPath : Bytes := d.destination ++ lit ".part"

/-- `prepare` has returned true. -/
def Phase.isPrepared : Phase → Bool
  | .starting | .opening _ | .truncating _ | .reading _ _ _ => false
  | _ => true

/-- `run` has reached `complete` and the file is still at its `.part` path. -/
def Phase.isCompleting : Phase → Bool
  | .checking | .hashing _ | .moving => true
  | _ => false

/-- The file has been moved into place. -/
def Phase.isMoved : Phase → Bool
  | .sharingAgain | .adding | .finishing | .finished none => true
  | _ => false

def isFinished : Bool :=
  match d.phase with
  | .finished _ => true
  | _ => false

/-- The seeders after `seederAt(index)`, which renews every ticket if this one is about to expire. -/
def seederAt (index : Nat) (now : Int) (located : Option (List SeederAccess)) : List SeederAccess :=
  match d.seeders[index]?, located with
  | some seeder, some fresh =>
    if seeder.expires - now < TICKET_MARGIN_SECONDS then
      d.seeders.map (fun seeder => fresh.foldl
        (fun current update => if update.endpoint = current.endpoint then update else current) seeder)
    else d.seeders
  | _, _ => d.seeders

def finish (failure : Option Bytes) : Download := { d with phase := .finished failure }

/-- The pieces `prepare` has kept. -/
def kept : List Nat := (List.range d.verified.length).filter (fun piece => d.verified.getD piece false)

/-- The missing pieces, fewest holders first, ties by index. -/
def rarestFirst : List Nat :=
  ((List.range d.verified.length).filter (fun piece => !d.verified.getD piece false)).insertionSort
    (fun a b => d.rarity.getD a 0 ≤ d.rarity.getD b 0)

def threadCount (order : List Nat) : Nat := min (min MAX_THREADS d.seeders.length) order.length

/-- The seeders whose bitmap has the piece. -/
def holders (piece : Nat) : List Nat :=
  (List.range d.seeders.length).filter (fun seeder => (d.seederBitmaps.getD seeder []).getD piece false)

/-- The holder that `fetchPiece` asks at this attempt. -/
def asks (piece attempt : Nat) : Nat := (d.holders piece).getD ((piece + attempt) % (d.holders piece).length) 0

def pieceHash (piece : Nat) : Bytes := d.metadata.pieceHashes.getD piece []

def unableToCreate : Bytes := lit "unable to create destination file"
def cancelledByUser : Bytes := lit "cancelled by user; partial file kept for resume"
def notReconstructed : Bytes := lit "one or more pieces could not be reconstructed"
def hashingFailed : Bytes := lit "final file hashing failed"
def integrityCheckFailed : Bytes := lit "final SHA1 integrity check failed"
def unableToMove : Bytes := lit "unable to move completed file into place"

variable (ssl : OpenSsl)

/-- A step of the loop in `prepare`. -/
def prepareStep (file : Bytes) (resuming : Bool) (piece : Nat) (data : Bytes) (input : Input) : Download :=
  if !resuming || d.verified.length ≤ piece then
    { d with
      phase := .asking 0
      completed := d.kept
      seederBitmaps := List.replicate d.seeders.length []
      rarity := List.replicate d.metadata.pieceCount 0 }
  else
    if d.metadata.pieceLength piece ≤ data.length then
      if sha1Hex ssl data = d.pieceHash piece then
        { d with
          phase := .reading resuming (piece + 1) []
          verified := d.verified.set piece true
          resumedPieces := d.resumedPieces + 1 }
      else { d with phase := .reading resuming (piece + 1) [] }
    else
      match input with
      | .io outcome =>
        match PieceFile.readStep file piece (d.metadata.pieceLength piece) data outcome with
        | none => { d with phase := .reading resuming (piece + 1) [] }
        | some data => { d with phase := .reading resuming piece data }
      | _ => d

/-- A step of the loop in `fetchBitmaps`. -/
def bitmapStep (seeder : Nat) (input : Input) : Download :=
  if d.seeders.length ≤ seeder then { d with phase := .publishing }
  else
    match input with
    | .reply now located outcome =>
      let seeders := d.seederAt seeder now located
      match PeerClient.fetchBitmap d.metadata.pieceCount outcome with
      | (.success, bitmap) =>
        { d with
          phase := .asking (seeder + 1)
          seeders
          seederBitmaps := d.seederBitmaps.set seeder bitmap
          rarity := List.zipWith (fun count piece => count + piece.toNat) d.rarity bitmap }
      | _ => { d with phase := .asking (seeder + 1), seeders }
    | _ => d

/-- A step of `run` outside the workers. -/
def mainStep (view : View) (input : Input) : Download × Effect :=
  match d.phase with
  | .starting => ({ d with phase := .opening (view.part.isSome && input ≠ .fail) }, .none)
  | .opening resuming =>
    if input = .fail then (d.finish (some unableToCreate), .none)
    else ({ d with phase := .truncating resuming }, .openPart)
  | .truncating resuming =>
    if input = .fail || 2 ^ 63 ≤ d.metadata.size.toNat then (d.finish (some unableToCreate), .none)
    else
      ({ d with
          phase := .reading resuming 0 []
          verified := List.replicate d.metadata.pieceCount false },
        .write (ftruncate view.file d.metadata.size.toNat))
  | .reading resuming piece data => (d.prepareStep ssl view.file resuming piece data input, .none)
  | .asking seeder => (d.bitmapStep seeder input, .none)
  | .publishing => ({ d with phase := .sharing }, .add ⟨d.partPath, d.metadata, d.verified⟩)
  | .sharing =>
    ({ d with
        phase := .fetching
        order := d.rarestFirst
        next := 0
        pieceFailed := false
        workers := List.replicate (d.threadCount d.rarestFirst) .looping },
      .share)
  | .fetching =>
    if d.workers.any (· ≠ .stopped) then (d, .none)
    else if d.cancelled then (d.finish (some cancelledByUser), .none)
    else if d.pieceFailed then (d.finish (some notReconstructed), .none)
    else ({ d with phase := .checking }, .none)
  | .checking =>
    if input = .fail || view.part.isNone then (d.finish (some hashingFailed), .none)
    else ({ d with phase := .hashing [] }, .openInput)
  | .hashing data =>
    match input with
    | .io outcome =>
      match PieceFile.hashStep ssl view.input data outcome with
      | .failed => (d.finish (some hashingFailed), .none)
      | .more data => ({ d with phase := .hashing data }, .none)
      | .done actual =>
        if actual.size ≠ d.metadata.size || actual.fullHash ≠ d.metadata.fullHash then
          (d.finish (some integrityCheckFailed), .none)
        else ({ d with phase := .moving }, .none)
    | _ => (d, .none)
  | .moving =>
    if input = .fail || view.part.isNone then (d.finish (some unableToMove), .none)
    else ({ d with phase := .sharingAgain }, .rename)
  | .sharingAgain => ({ d with phase := .adding }, .share)
  | .adding =>
    ({ d with phase := .finishing }, .add ⟨d.destination, d.metadata, List.replicate d.metadata.pieceCount true⟩)
  | .finishing => (d.finish none, .none)
  | .finished _ => (d, .none)

/-- The same download with its `k`-th worker somewhere else. -/
def setWorker (k : Nat) (w : Worker) : Download := { d with workers := d.workers.set k w }

/-- `fetchPiece` after a seeder's answer. -/
def answerStep (k piece attempt seeder : Nat) (now : Int) (located : Option (List SeederAccess)) (outcome : Outcome) :
    Download :=
  let d := { d with seeders := d.seederAt seeder now located }
  match PeerClient.fetchPiece ssl (d.pieceHash piece) outcome with
  | (.success, data) => d.setWorker k (.writing piece attempt data 0)
  | (.integrityFailure, _) =>
    { d.setWorker k (.attempting piece (attempt + 1)) with integrityFailures := d.integrityFailures + 1 }
  | _ => d.setWorker k (.attempting piece (attempt + 1))

/-- A step of the `k`-th worker. -/
def workerStep (file : Bytes) (k : Nat) (input : Input) : Download × Effect :=
  match d.workers[k]? with
  | none => (d, .none)
  | some .looping => (d.setWorker k (if d.cancelled then .stopped else .claiming), .none)
  | some .claiming =>
    let claimed := { d with next := d.next + 1 }
    match d.order[d.next]? with
    | some piece => (claimed.setWorker k (.attempting piece 0), .none)
    | none => (claimed.setWorker k .stopped, .none)
  | some (.attempting piece attempt) =>
    if attempt < PASSES_PER_PIECE * (d.holders piece).length && !d.cancelled then
      (d.setWorker k (.requesting piece attempt (d.asks piece attempt)), .none)
    else (d.setWorker k (.returned piece), .none)
  | some (.requesting piece attempt seeder) =>
    match input with
    | .reply now located outcome => (d.answerStep ssl k piece attempt seeder now located outcome, .none)
    | _ => (d, .none)
  | some (.writing piece attempt data done) =>
    if data.length ≤ done then (d.setWorker k (.written piece), .none)
    else
      match input with
      | .io outcome =>
        match PieceFile.writeStep file piece data done outcome with
        | none => (d.setWorker k (.attempting piece (attempt + 1)), .none)
        | some (contents, done) => (d.setWorker k (.writing piece attempt data done), .write contents)
      | _ => (d, .none)
  | some (.written piece) => ({ d.setWorker k (.counted piece) with completed := d.completed ++ [piece] }, .none)
  | some (.counted piece) => (d.setWorker k .looping, .markAvailable piece)
  | some (.returned piece) => (d.setWorker k (if d.cancelled then .looping else .recording piece), .none)
  | some (.recording _) => ({ d.setWorker k .looping with pieceFailed := true }, .none)
  | some .stopped => (d, .none)

def step (view : View) : Action → Download × Effect
  | .cancel => ({ d with cancelled := true }, .none)
  | .main input => d.mainStep ssl view input
  | .worker k input => d.workerStep ssl view.file k input

/-- A download as a machine: each input is an action and what it finds outside. -/
def advance (ssl : OpenSsl) (d : Download) (i : View × Action) : Download × Effect := d.step ssl i.1 i.2

/-- What a step is about to do outside, as far as the state before it tells. -/
inductive Intent
  | none
  | opens
  | writes
  | moves
  | adds (file : LocalFile)
  | marks (piece : Nat)
  deriving DecidableEq, Repr

def intent (d : Download) : Action → Intent
  | .cancel => .none
  | .main input =>
    match d.phase with
    | .opening _ => if input = .fail then .none else .opens
    | .truncating _ => if input = .fail then .none else .writes
    | .moving => if input = .fail then .none else .moves
    | .publishing => .adds ⟨d.partPath, d.metadata, d.verified⟩
    | .adding => .adds ⟨d.destination, d.metadata, List.replicate d.metadata.pieceCount true⟩
    | _ => .none
  | .worker k _ =>
    match d.workers[k]? with
    | some (.writing _ _ data done) => if data.length ≤ done then .none else .writes
    | some (.counted piece) => .marks piece
    | _ => .none

def Effect.intent : Effect → Intent
  | .openPart => .opens
  | .write _ => .writes
  | .rename => .moves
  | .add file => .adds file
  | .markAvailable piece => .marks piece
  | .none | .openInput | .share => .none

section Frame

variable {d : Download} {ssl : OpenSsl}

/-- What a download is about, from its start to its end. -/
def subject (d : Download) : Bytes × Bytes × Bytes × FileMetadata := (d.group, d.name, d.destination, d.metadata)

theorem prepareStep_frame (file : Bytes) (resuming : Bool) (piece : Nat) (data : Bytes) (input : Input) :
    (d.prepareStep ssl file resuming piece data input).subject = d.subject ∧
      (d.prepareStep ssl file resuming piece data input).seeders = d.seeders ∧
      (d.prepareStep ssl file resuming piece data input).workers = d.workers := by
  unfold prepareStep
  split
  · exact ⟨rfl, rfl, rfl⟩
  · split
    · split <;> exact ⟨rfl, rfl, rfl⟩
    · split
      · split <;> exact ⟨rfl, rfl, rfl⟩
      · exact ⟨rfl, rfl, rfl⟩

/-- What a step of the main thread can be: the phase it starts from, what it has found, and its result. -/
inductive MainStep (ssl : OpenSsl) (d : Download) (view : View) (input : Input) : Download × Effect → Prop
  /-- It waits, or `run` has returned. -/
  | stay : MainStep ssl d view input (d, .none)
  | look (hphase : d.phase = .starting) :
      MainStep ssl d view input ({ d with phase := .opening (view.part.isSome && input ≠ .fail) }, .none)
  | notOpened {resuming : Bool} (hphase : d.phase = .opening resuming) :
      MainStep ssl d view input (d.finish (some unableToCreate), .none)
  | opened {resuming : Bool} (hphase : d.phase = .opening resuming) (hok : input ≠ .fail) :
      MainStep ssl d view input ({ d with phase := .truncating resuming }, .openPart)
  | notTruncated {resuming : Bool} (hphase : d.phase = .truncating resuming) :
      MainStep ssl d view input (d.finish (some unableToCreate), .none)
  | truncated {resuming : Bool} (hphase : d.phase = .truncating resuming) (hok : input ≠ .fail) :
      MainStep ssl d view input
        ({ d with phase := .reading resuming 0 [], verified := List.replicate d.metadata.pieceCount false },
          .write (ftruncate view.file d.metadata.size.toNat))
  | prepare {resuming : Bool} {piece : Nat} {data : Bytes} (hphase : d.phase = .reading resuming piece data) :
      MainStep ssl d view input (d.prepareStep ssl view.file resuming piece data input, .none)
  | bitmap {seeder : Nat} (hphase : d.phase = .asking seeder) :
      MainStep ssl d view input (d.bitmapStep seeder input, .none)
  | publish (hphase : d.phase = .publishing) :
      MainStep ssl d view input ({ d with phase := .sharing }, .add ⟨d.partPath, d.metadata, d.verified⟩)
  | start (hphase : d.phase = .sharing) :
      MainStep ssl d view input
        ({ d with
            phase := .fetching
            order := d.rarestFirst
            next := 0
            pieceFailed := false
            workers := List.replicate (d.threadCount d.rarestFirst) .looping },
          .share)
  | giveUp (hphase : d.phase = .fetching) (hstopped : ∀ w ∈ d.workers, w = .stopped) (reason : Bytes)
      (hreason : reason = cancelledByUser ∨ reason = notReconstructed) :
      MainStep ssl d view input (d.finish (some reason), .none)
  | join (hphase : d.phase = .fetching) (hstopped : ∀ w ∈ d.workers, w = .stopped) (hcancelled : d.cancelled = false)
      (hfailed : d.pieceFailed = false) : MainStep ssl d view input ({ d with phase := .checking }, .none)
  | notChecked (hphase : d.phase = .checking) : MainStep ssl d view input (d.finish (some hashingFailed), .none)
  | check (hphase : d.phase = .checking) : MainStep ssl d view input ({ d with phase := .hashing [] }, .openInput)
  | notHashed {data : Bytes} {outcome : Transfer} (hphase : d.phase = .hashing data)
      (hhash : PieceFile.hashStep ssl view.input data outcome = .failed) :
      MainStep ssl d view input (d.finish (some hashingFailed), .none)
  | hashOn {data data' : Bytes} {outcome : Transfer} (hphase : d.phase = .hashing data)
      (hhash : PieceFile.hashStep ssl view.input data outcome = .more data') :
      MainStep ssl d view input ({ d with phase := .hashing data' }, .none)
  | mismatch {data : Bytes} {outcome : Transfer} {actual : FileMetadata} (hphase : d.phase = .hashing data)
      (hhash : PieceFile.hashStep ssl view.input data outcome = .done actual)
      (hactual : actual.size ≠ d.metadata.size ∨ actual.fullHash ≠ d.metadata.fullHash) :
      MainStep ssl d view input (d.finish (some integrityCheckFailed), .none)
  | accept {data : Bytes} {outcome : Transfer} {actual : FileMetadata} (hphase : d.phase = .hashing data)
      (hhash : PieceFile.hashStep ssl view.input data outcome = .done actual)
      (hactual : actual.size = d.metadata.size ∧ actual.fullHash = d.metadata.fullHash) :
      MainStep ssl d view input ({ d with phase := .moving }, .none)
  | notMoved (hphase : d.phase = .moving) : MainStep ssl d view input (d.finish (some unableToMove), .none)
  | move (hphase : d.phase = .moving) (hok : input ≠ .fail) (hpart : view.part.isSome) :
      MainStep ssl d view input ({ d with phase := .sharingAgain }, .rename)
  | shareAgain (hphase : d.phase = .sharingAgain) : MainStep ssl d view input ({ d with phase := .adding }, .share)
  | add (hphase : d.phase = .adding) :
      MainStep ssl d view input
        ({ d with phase := .finishing }, .add ⟨d.destination, d.metadata, List.replicate d.metadata.pieceCount true⟩)
  | finish (hphase : d.phase = .finishing) : MainStep ssl d view input (d.finish none, .none)

theorem mainStep_cases (ssl : OpenSsl) (d : Download) (view : View) (input : Input) :
    MainStep ssl d view input (d.mainStep ssl view input) := by
  unfold mainStep
  split
  case h_1 hphase => exact .look hphase
  case h_2 hphase =>
    split
    · exact .notOpened hphase
    · next hok => exact .opened hphase hok
  case h_3 hphase =>
    split
    · exact .notTruncated hphase
    · next hok =>
      simp only [Bool.or_eq_true, decide_eq_true_eq, not_or] at hok
      exact .truncated hphase hok.1
  case h_4 hphase => exact .prepare hphase
  case h_5 hphase => exact .bitmap hphase
  case h_6 hphase => exact .publish hphase
  case h_7 hphase => exact .start hphase
  case h_8 hphase =>
    split
    · exact .stay
    · next hjoin =>
      have hstopped : ∀ w ∈ d.workers, w = .stopped := by simpa using hjoin
      split
      · exact .giveUp hphase hstopped _ (Or.inl rfl)
      · next hcancelled =>
        split
        · exact .giveUp hphase hstopped _ (Or.inr rfl)
        · next hfailed => exact .join hphase hstopped (by simpa using hcancelled) (by simpa using hfailed)
  case h_9 hphase =>
    split
    · exact .notChecked hphase
    · exact .check hphase
  case h_10 hphase =>
    split
    · split
      · next hhash => exact .notHashed hphase hhash
      · next hhash => exact .hashOn hphase hhash
      · next hhash =>
        split
        · next hactual => exact .mismatch hphase hhash (by simpa using hactual)
        · next hactual => exact .accept hphase hhash (by simpa using hactual)
    · exact .stay
  case h_11 hphase =>
    split
    · exact .notMoved hphase
    · next hmoves =>
      simp only [Bool.or_eq_true, decide_eq_true_eq, not_or, Option.isNone_iff_eq_none] at hmoves
      exact .move hphase hmoves.1 (Option.isSome_iff_ne_none.mpr hmoves.2)
  case h_12 hphase => exact .shareAgain hphase
  case h_13 hphase => exact .add hphase
  case h_14 hphase => exact .finish hphase
  case h_15 => exact .stay

/-- The loop of `prepare` goes on, or ends with the kept pieces counted. -/
theorem prepareStep_phase (file : Bytes) {resuming : Bool} {piece : Nat} {data : Bytes} (input : Input)
    (hphase : d.phase = .reading resuming piece data) :
    (∃ piece' data', (d.prepareStep ssl file resuming piece data input).phase = .reading resuming piece' data') ∨
      (d.prepareStep ssl file resuming piece data input).phase = .asking 0 := by
  unfold prepareStep
  split
  · exact Or.inr rfl
  · left
    split
    · split <;> exact ⟨_, _, rfl⟩
    · split
      · split <;> exact ⟨_, _, rfl⟩
      · exact ⟨_, _, hphase⟩

theorem bitmapStep_frame (seeder : Nat) (input : Input) :
    (d.bitmapStep seeder input).subject = d.subject ∧ (d.bitmapStep seeder input).workers = d.workers := by
  unfold bitmapStep
  split
  · exact ⟨rfl, rfl⟩
  · split
    · dsimp only
      split <;> exact ⟨rfl, rfl⟩
    · exact ⟨rfl, rfl⟩

/-- A seeder that is asked for its bitmap is asked with its renewed access. -/
theorem bitmapStep_seeders (seeder : Nat) (input : Input) : (d.bitmapStep seeder input).seeders = d.seeders ∨
    ∃ now located outcome, input = .reply now located outcome ∧
      (d.bitmapStep seeder input).seeders = d.seederAt seeder now located := by
  unfold bitmapStep
  split
  · exact Or.inl rfl
  · split
    · next now located outcome =>
      refine Or.inr ⟨now, located, outcome, rfl, ?_⟩
      dsimp only
      split <;> rfl
    · exact Or.inl rfl

/-- After an answer the worker has moved on and the accesses may have been renewed. -/
theorem answerStep_eq (k piece attempt seeder : Nat) (now : Int) (located : Option (List SeederAccess))
    (outcome : Outcome) : ∃ w failures, d.answerStep ssl k piece attempt seeder now located outcome =
      { d.setWorker k w with seeders := d.seederAt seeder now located, integrityFailures := failures } := by
  unfold answerStep
  dsimp only
  split <;> exact ⟨_, _, rfl⟩

theorem answerStep_seeders (k piece attempt seeder : Nat) (now : Int) (located : Option (List SeederAccess))
    (outcome : Outcome) :
    (d.answerStep ssl k piece attempt seeder now located outcome).seeders = d.seederAt seeder now located := by
  obtain ⟨w, failures, hanswer⟩ := @answerStep_eq d ssl k piece attempt seeder now located outcome
  rw [hanswer]

/-- What a step of worker `k` can be: where it stands, what it has found, and the result. -/
inductive WorkerStep (ssl : OpenSsl) (d : Download) (file : Bytes) (k : Nat) : Input → Download × Effect → Prop
  | absent {input : Input} (hw : d.workers[k]? = none) : WorkerStep ssl d file k input (d, .none)
  | stopped {input : Input} (hw : d.workers[k]? = some .stopped) : WorkerStep ssl d file k input (d, .none)
  | goOn {input : Input} (hw : d.workers[k]? = some .looping) (hcancelled : d.cancelled = false) :
      WorkerStep ssl d file k input (d.setWorker k .claiming, .none)
  | quit {input : Input} (hw : d.workers[k]? = some .looping) (hcancelled : d.cancelled = true) :
      WorkerStep ssl d file k input (d.setWorker k .stopped, .none)
  | claim {input : Input} {piece : Nat} (hw : d.workers[k]? = some .claiming) (hnext : d.order[d.next]? = some piece) :
      WorkerStep ssl d file k input ({ d with next := d.next + 1 }.setWorker k (.attempting piece 0), .none)
  | miss {input : Input} (hw : d.workers[k]? = some .claiming) (hnext : d.order[d.next]? = none) :
      WorkerStep ssl d file k input ({ d with next := d.next + 1 }.setWorker k .stopped, .none)
  | ask {input : Input} {piece attempt : Nat} (hw : d.workers[k]? = some (.attempting piece attempt))
      (hmore : attempt < PASSES_PER_PIECE * (d.holders piece).length) (hcancelled : d.cancelled = false) :
      WorkerStep ssl d file k input (d.setWorker k (.requesting piece attempt (d.asks piece attempt)), .none)
  | giveUp {input : Input} {piece attempt : Nat} (hw : d.workers[k]? = some (.attempting piece attempt))
      (hlast : attempt < PASSES_PER_PIECE * (d.holders piece).length → d.cancelled = true) :
      WorkerStep ssl d file k input (d.setWorker k (.returned piece), .none)
  | wait {input : Input} {piece attempt seeder : Nat} (hw : d.workers[k]? = some (.requesting piece attempt seeder))
      (hinput : ∀ now located outcome, input ≠ .reply now located outcome) : WorkerStep ssl d file k input (d, .none)
  | answer {piece attempt seeder : Nat} {now : Int} {located : Option (List SeederAccess)} {outcome : Outcome}
      (hw : d.workers[k]? = some (.requesting piece attempt seeder)) :
      WorkerStep ssl d file k (.reply now located outcome)
        (d.answerStep ssl k piece attempt seeder now located outcome, .none)
  | wrote {input : Input} {piece attempt done : Nat} {data : Bytes}
      (hw : d.workers[k]? = some (.writing piece attempt data done)) (hall : data.length ≤ done) :
      WorkerStep ssl d file k input (d.setWorker k (.written piece), .none)
  | notWritten {piece attempt done : Nat} {data : Bytes} {outcome : Transfer}
      (hw : d.workers[k]? = some (.writing piece attempt data done)) (hmore : done < data.length)
      (hstep : PieceFile.writeStep file piece data done outcome = none) :
      WorkerStep ssl d file k (.io outcome) (d.setWorker k (.attempting piece (attempt + 1)), .none)
  | write {piece attempt done done' : Nat} {data contents : Bytes} {outcome : Transfer}
      (hw : d.workers[k]? = some (.writing piece attempt data done)) (hmore : done < data.length)
      (hstep : PieceFile.writeStep file piece data done outcome = some (contents, done')) :
      WorkerStep ssl d file k (.io outcome) (d.setWorker k (.writing piece attempt data done'), .write contents)
  | block {input : Input} {piece attempt done : Nat} {data : Bytes}
      (hw : d.workers[k]? = some (.writing piece attempt data done)) (hmore : done < data.length)
      (hinput : ∀ outcome, input ≠ .io outcome) : WorkerStep ssl d file k input (d, .none)
  | count {input : Input} {piece : Nat} (hw : d.workers[k]? = some (.written piece)) :
      WorkerStep ssl d file k input
        ({ d.setWorker k (.counted piece) with completed := d.completed ++ [piece] }, .none)
  | publish {input : Input} {piece : Nat} (hw : d.workers[k]? = some (.counted piece)) :
      WorkerStep ssl d file k input (d.setWorker k .looping, .markAvailable piece)
  | drop {input : Input} {piece : Nat} (hw : d.workers[k]? = some (.returned piece)) (hcancelled : d.cancelled = true) :
      WorkerStep ssl d file k input (d.setWorker k .looping, .none)
  | fail {input : Input} {piece : Nat} (hw : d.workers[k]? = some (.returned piece))
      (hcancelled : d.cancelled = false) : WorkerStep ssl d file k input (d.setWorker k (.recording piece), .none)
  | record {input : Input} {piece : Nat} (hw : d.workers[k]? = some (.recording piece)) :
      WorkerStep ssl d file k input ({ d.setWorker k .looping with pieceFailed := true }, .none)

theorem workerStep_cases (ssl : OpenSsl) (d : Download) (file : Bytes) (k : Nat) (input : Input) :
    WorkerStep ssl d file k input (d.workerStep ssl file k input) := by
  unfold workerStep
  split
  case h_1 hw => exact .absent hw
  case h_2 hw =>
    split
    · next hcancelled => exact .quit hw hcancelled
    · next hcancelled => exact .goOn hw (by simpa using hcancelled)
  case h_3 hw =>
    dsimp only
    split
    · next hnext => exact .claim hw hnext
    · next hnext => exact .miss hw hnext
  case h_4 hw =>
    split
    · next hmore =>
      simp only [Bool.and_eq_true, decide_eq_true_eq, Bool.not_eq_true'] at hmore
      exact .ask hw hmore.1 hmore.2
    · next hlast => exact .giveUp hw (by simpa using hlast)
  case h_5 hw =>
    split
    · exact .answer hw
    · next hinput => exact .wait hw hinput
  case h_6 hw =>
    split
    · next hall => exact .wrote hw hall
    · next hmore =>
      split
      · split
        · next hstep => exact .notWritten hw (Nat.lt_of_not_le hmore) hstep
        · next hstep => exact .write hw (Nat.lt_of_not_le hmore) hstep
      · next hinput => exact .block hw (Nat.lt_of_not_le hmore) hinput
  case h_7 hw => exact .count hw
  case h_8 hw => exact .publish hw
  case h_9 hw =>
    split
    · next hcancelled => exact .drop hw hcancelled
    · next hcancelled => exact .fail hw (by simpa using hcancelled)
  case h_10 hw => exact .record hw
  case h_11 hw => exact .stopped hw

/-- A worker leaves the subject and the phase alone, only adds to what is counted, and touches nothing outside but
the open file and the flag of a piece. -/
theorem workerStep_frame (file : Bytes) (k : Nat) (input : Input) :
    (d.workerStep ssl file k input).1.subject = d.subject ∧ (d.workerStep ssl file k input).1.phase = d.phase ∧
      (∀ i ∈ d.completed, i ∈ (d.workerStep ssl file k input).1.completed) ∧
      ((d.workerStep ssl file k input).2 = .none ∨ (∃ contents, (d.workerStep ssl file k input).2 = .write contents) ∨
        ∃ piece, (d.workerStep ssl file k input).2 = .markAvailable piece) := by
  have hcases := workerStep_cases ssl d file k input
  generalize d.workerStep ssl file k input = result at hcases ⊢
  cases hcases with
  | @answer piece attempt seeder now located outcome =>
    obtain ⟨w, failures, hanswer⟩ := @answerStep_eq d ssl k piece attempt seeder now located outcome
    rw [hanswer]
    exact ⟨rfl, rfl, fun _ h => h, Or.inl rfl⟩
  | write => exact ⟨rfl, rfl, fun _ h => h, Or.inr (Or.inl ⟨_, rfl⟩)⟩
  | count => exact ⟨rfl, rfl, fun _ h => List.mem_append_left _ h, Or.inl rfl⟩
  | publish => exact ⟨rfl, rfl, fun _ h => h, Or.inr (Or.inr ⟨_, rfl⟩)⟩
  | _ => exact ⟨rfl, rfl, fun _ h => h, Or.inl rfl⟩

theorem workerStep_idle (file : Bytes) (k : Nat) (input : Input) (h : ∀ w ∈ d.workers, w = .stopped) :
    d.workerStep ssl file k input = (d, .none) := by
  cases hw : d.workers[k]? with
  | none => simp only [workerStep, hw]
  | some w =>
    obtain rfl := h w (List.mem_of_getElem? hw)
    simp only [workerStep, hw]

theorem mainStep_subject (view : View) (input : Input) : (d.mainStep ssl view input).1.subject = d.subject := by
  have hcases := mainStep_cases ssl d view input
  generalize d.mainStep ssl view input = result at hcases ⊢
  cases hcases with
  | prepare => exact (prepareStep_frame _ _ _ _ _).1
  | bitmap => exact (bitmapStep_frame _ _).1
  | _ => rfl

/-- After `prepare`, the main thread leaves what is counted alone. -/
theorem mainStep_prepared (view : View) (input : Input) (h : d.phase.isPrepared = true) :
    (d.mainStep ssl view input).1.phase.isPrepared = true ∧ (d.mainStep ssl view input).1.completed = d.completed := by
  have hcases := mainStep_cases ssl d view input
  generalize d.mainStep ssl view input = result at hcases ⊢
  cases hcases with
  | look hphase | notOpened hphase | opened hphase | notTruncated hphase | truncated hphase | prepare hphase =>
    simp [hphase, Phase.isPrepared] at h
  | bitmap =>
    unfold bitmapStep
    split
    · exact ⟨rfl, rfl⟩
    · split
      · dsimp only
        split <;> exact ⟨rfl, rfl⟩
      · exact ⟨h, rfl⟩
  | stay => exact ⟨h, rfl⟩
  | _ => exact ⟨rfl, rfl⟩

/-- Opening and moving the file happen where the phase says. -/
theorem step_effect (view : View) (action : Action) :
    ((d.step ssl view action).2 = .openPart → ∃ resuming, (d.step ssl view action).1.phase = .truncating resuming) ∧
      ((d.step ssl view action).2 = .rename → view.part.isSome) := by
  cases action with
  | cancel => exact ⟨fun h => by simp [step] at h, fun h => by simp [step] at h⟩
  | worker k input =>
    obtain ⟨-, -, -, heffect⟩ := @workerStep_frame d ssl view.file k input
    simp only [step]
    rcases heffect with he | ⟨contents, he⟩ | ⟨piece, he⟩ <;> simp [he]
  | main input =>
    have hcases := mainStep_cases ssl d view input
    simp only [step]
    generalize d.mainStep ssl view input = result at hcases ⊢
    cases hcases with
    | opened hphase => exact ⟨fun _ => ⟨_, rfl⟩, by simp⟩
    | move hphase hok hpart => exact ⟨by simp, fun _ => hpart⟩
    | _ => simp

theorem mainStep_intent (view : View) (input : Input) : (d.mainStep ssl view input).2.intent = .none ∨
    (d.mainStep ssl view input).2.intent = d.intent (.main input) := by
  have hcases := mainStep_cases ssl d view input
  generalize d.mainStep ssl view input = result at hcases ⊢
  cases hcases with
  | opened hphase hok | truncated hphase hok | move hphase hok =>
    simp only [intent, hphase, if_neg hok]
    exact Or.inr rfl
  | publish hphase | add hphase =>
    simp only [intent, hphase]
    exact Or.inr rfl
  | _ => exact Or.inl rfl

theorem workerStep_intent (file : Bytes) (k : Nat) (input : Input) : (d.workerStep ssl file k input).2.intent = .none ∨
    (d.workerStep ssl file k input).2.intent = d.intent (.worker k input) := by
  have hcases := workerStep_cases ssl d file k input
  generalize d.workerStep ssl file k input = result at hcases ⊢
  cases hcases with
  | write hw hmore =>
    simp only [intent, hw, if_neg (Nat.not_le_of_lt hmore)]
    exact Or.inr rfl
  | publish hw =>
    simp only [intent, hw]
    exact Or.inr rfl
  | _ => exact Or.inl rfl

/-- A step does what it was about to do, or nothing. -/
theorem step_intent (view : View) (action : Action) : (d.step ssl view action).2.intent = .none ∨
    (d.step ssl view action).2.intent = d.intent action := by
  cases action with
  | cancel => exact Or.inl rfl
  | main input => exact mainStep_intent view input
  | worker k input => exact workerStep_intent view.file k input

/-- The main thread adds an entry in two places. -/
theorem intent_adds {action : Action} {file : LocalFile} (h : d.intent action = .adds file) :
    (∃ input, action = .main input) ∧
      ((d.phase = .publishing ∧ file = ⟨d.partPath, d.metadata, d.verified⟩) ∨
        (d.phase = .adding ∧ file = ⟨d.destination, d.metadata, List.replicate d.metadata.pieceCount true⟩)) := by
  cases action with
  | cancel => simp [intent] at h
  | main input =>
    refine ⟨⟨input, rfl⟩, ?_⟩
    simp only [intent] at h
    split at h
    case h_4 hphase => exact Or.inl ⟨hphase, (Intent.adds.inj h).symm⟩
    case h_5 hphase => exact Or.inr ⟨hphase, (Intent.adds.inj h).symm⟩
    all_goals first | (split at h <;> simp at h) | simp at h
  | worker k input =>
    simp only [intent] at h
    split at h
    · split at h <;> simp at h
    · simp at h
    · simp at h

theorem step_subject (view : View) (action : Action) : (d.step ssl view action).1.subject = d.subject := by
  cases action with
  | cancel => rfl
  | main input => exact mainStep_subject view input
  | worker k input => exact (workerStep_frame view.file k input).1

end Frame

end Download

end TorrentAtlas
