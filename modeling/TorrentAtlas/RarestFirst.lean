import TorrentAtlas.Library.StableSort
import TorrentAtlas.Ownership

/-!
# Rarest first

`fetchBitmaps` counts the holders of each piece while the answers come in; `fetchPiece`
looks them up in the bitmaps that were kept. `Surveyed` says that the two agree, whatever
the seeders answered, so the order that `rarestFirst` makes is one by holders.
-/
namespace TorrentAtlas

open Encoding Crypto

namespace Download

/-- An access `v[index]` to a vector of some size. -/
structure Access where
  index : Nat
  size : Nat
  deriving DecidableEq, Repr

def Access.InRange (a : Access) : Prop := a.index < a.size

instance (a : Access) : Decidable a.InRange := inferInstanceAs (Decidable (_ < _))

/-- Counting the pieces of a bitmap in `fetchBitmaps`. -/
def countAccesses (d : Download) (outcome : Outcome) : List Access :=
  match PeerClient.fetchBitmap d.metadata.pieceCount outcome with
  | (.success, bitmap) => (List.range bitmap.length).flatMap (fun piece =>
      [⟨piece, d.rarity.length⟩, ⟨piece, bitmap.length⟩])
  | _ => []

/-- Looking up the holders of a piece in `fetchPiece`. -/
def holderAccesses (d : Download) (piece : Nat) : List Access :=
  (List.range d.seeders.length).flatMap (fun seeder =>
    ⟨seeder, d.seederBitmaps.length⟩ ::
      if piece < (d.seederBitmaps.getD seeder []).length then [⟨piece, (d.seederBitmaps.getD seeder []).length⟩] else [])

/-- The accesses of a step to `verified_`, to `rarity_` and to the bitmaps. -/
def accesses (d : Download) : Action → List Access
  | .cancel => []
  | .main input =>
    match d.phase with
    | .reading resuming piece _ =>
      if resuming && piece < d.verified.length then
        [⟨piece, d.verified.length⟩, ⟨piece, d.metadata.pieceHashes.length⟩]
      else []
    | .asking seeder =>
      if d.seeders.length ≤ seeder then []
      else
        ⟨seeder, d.seederBitmaps.length⟩ ::
          match input with
          | .reply _ _ outcome => d.countAccesses outcome
          | _ => []
    | .sharing =>
      (List.range d.verified.length).map (⟨·, d.verified.length⟩) ++ d.rarestFirst.map (⟨·, d.rarity.length⟩)
    | _ => []
  | .worker k _ =>
    match d.workers[k]? with
    | some (.attempting piece _) => d.holderAccesses piece
    | _ => []

/-- The vectors of `fetchBitmaps` fit each other, and each piece is counted once for every holder. -/
structure Surveyed (d : Download) : Prop where
  verified : d.verified.length = d.metadata.pieceCount
  bitmaps : d.seederBitmaps.length = d.seeders.length
  rarity : d.rarity = (List.range d.metadata.pieceCount).map (fun piece => (d.holders piece).length)

/-- What each phase knows of the survey. -/
def PhaseSurveyed (d : Download) : Phase → Prop
  | .starting | .opening _ | .truncating _ | .finished (some _) => True
  | .reading _ _ _ => d.verified.length = d.metadata.pieceCount
  | .asking seeder => d.Surveyed ∧ ∀ i, seeder ≤ i → d.seederBitmaps.getD i [] = []
  | .publishing | .sharing => d.Surveyed
  | _ => d.Surveyed ∧ d.order = d.rarestFirst

variable {d : Download} {ssl : OpenSsl}

theorem fetchBitmap_success {count : Nat} {outcome : Outcome} {bitmap : List Bool}
    (h : PeerClient.fetchBitmap count outcome = (.success, bitmap)) : bitmap.length = count := by
  unfold PeerClient.fetchBitmap at h
  split at h
  · split at h
    · simp at h
    · next hlen =>
      obtain ⟨-, rfl⟩ := Prod.mk.inj h
      simpa using hlen
  · next hne =>
    obtain ⟨rfl, -⟩ := Prod.mk.inj h
    exact absurd rfl hne

theorem length_seederAt (index : Nat) (now : Int) (located : Option (List SeederAccess)) :
    (d.seederAt index now located).length = d.seeders.length := by
  unfold seederAt
  split
  · split
    · exact List.length_map _
    · rfl
  · rfl

/-- Where one index starts to count, one more is counted. -/
theorem length_filter_range {f f' : Nat → Bool} {n i : Nat} (hi : i < n) (hold : f i = false)
    (hsame : ∀ j, j ≠ i → f' j = f j) :
    ((List.range n).filter f').length = ((List.range n).filter f).length + (f' i).toNat := by
  induction n with
  | zero => omega
  | succ n ih =>
    simp only [List.range_succ, List.filter_append, List.length_append]
    by_cases hin : i = n
    · subst hin
      have hbelow : (List.range i).filter f' = (List.range i).filter f :=
        List.filter_congr fun j hj => hsame j (Nat.ne_of_lt (List.mem_range.mp hj))
      rw [hbelow]
      cases hnew : f' i <;> simp [hnew, hold]
    · rw [ih (by omega), List.filter_singleton, List.filter_singleton, hsame n (Ne.symm hin)]
      omega

theorem Surveyed.count (h : d.Surveyed) {seeder : Nat} {bitmap : List Bool} (hseeder : seeder < d.seeders.length)
    (hnew : d.seederBitmaps.getD seeder [] = []) (hlen : bitmap.length = d.metadata.pieceCount) (phase : Phase)
    {seeders : List SeederAccess} (hseeders : seeders.length = d.seeders.length) :
    Surveyed { d with
      phase, seeders
      seederBitmaps := d.seederBitmaps.set seeder bitmap
      rarity := List.zipWith (fun count piece => count + piece.toNat) d.rarity bitmap } where
  verified := h.verified
  bitmaps := by simp [h.bitmaps, hseeders]
  rarity := by
    have hin : seeder < d.seederBitmaps.length := by rw [h.bitmaps]; exact hseeder
    have hholders : ∀ piece, ((List.range d.seeders.length).filter
        (fun i => ((d.seederBitmaps.set seeder bitmap).getD i []).getD piece false)).length =
          (d.holders piece).length + (bitmap.getD piece false).toNat := by
      intro piece
      rw [length_filter_range (f := fun i => (d.seederBitmaps.getD i []).getD piece false) hseeder
        (by simp only [hnew, List.getD_nil])]
      · simp [holders, List.getD_eq_getElem?_getD, hin]
      · intro j hj
        simp [List.getD_eq_getElem?_getD, List.getElem?_set_ne (Ne.symm hj)]
    refine List.ext_getElem (by simp [h.rarity, hlen]) fun piece hpiece hpiece' => ?_
    have hlt : piece < bitmap.length := by simpa [hlen] using hpiece'
    simp only [List.getElem_zipWith, h.rarity, List.getElem_map, List.getElem_range, holders, hseeders, hholders]
    rw [List.getD_eq_getElem?_getD, List.getElem?_eq_getElem hlt]
    rfl

/-- What `rarestFirst` returns: every piece that is not verified once, by number of holders and then by index. -/
structure Rarest (d : Download) (order : List Nat) : Prop where
  nodup : order.Nodup
  missing : ∀ piece, piece ∈ order ↔ piece < d.metadata.pieceCount ∧ d.verified.getD piece false = false
  sorted : order.Pairwise (fun a b => (d.holders a).length < (d.holders b).length ∨
    (d.holders a).length = (d.holders b).length ∧ a < b)

theorem Surveyed.getD_rarity (h : d.Surveyed) {piece : Nat} (hpiece : piece < d.metadata.pieceCount) :
    d.rarity.getD piece 0 = (d.holders piece).length := by
  rw [h.rarity, List.getD_eq_getElem?_getD, List.getElem?_map, List.getElem?_range hpiece]
  rfl

theorem Surveyed.mem_rarestFirst (h : d.Surveyed) {piece : Nat} :
    piece ∈ d.rarestFirst ↔ piece < d.metadata.pieceCount ∧ d.verified.getD piece false = false := by
  rw [rarestFirst, List.mem_insertionSort, List.mem_filter, List.mem_range, h.verified]
  simp

/-- The list is sorted by counts, and the counts are those of the holders. -/
theorem Surveyed.rarest (h : d.Surveyed) : d.Rarest d.rarestFirst where
  nodup := (List.perm_insertionSort _ _).nodup_iff.mpr (List.nodup_range.filter _)
  missing _ := h.mem_rarestFirst
  sorted := by
    have hsorted : d.rarestFirst.Pairwise (StableSort.Precedes (fun piece => d.rarity.getD piece 0) (· < ·)) :=
      StableSort.pairwise_insertionSort ((List.pairwise_lt_range).filter _)
    refine hsorted.imp_of_mem fun {a b} ha hb hab => ?_
    rw [← h.getD_rarity (h.mem_rarestFirst.mp ha).1, ← h.getD_rarity (h.mem_rarestFirst.mp hb).1]
    exact hab

section Steps

theorem Surveyed.frame {d' : Download} (h : d.Surveyed) (hsubject : d'.subject = d.subject)
    (hverified : d'.verified = d.verified) (hbitmaps : d'.seederBitmaps = d.seederBitmaps)
    (hrarity : d'.rarity = d.rarity) (hseeders : d'.seeders.length = d.seeders.length) : d'.Surveyed := by
  have hmetadata : d'.metadata = d.metadata := by
    simp only [subject, Prod.mk.injEq] at hsubject
    exact hsubject.2.2.2
  refine ⟨by rw [hverified, hmetadata]; exact h.verified, by rw [hbitmaps, hseeders]; exact h.bitmaps, ?_⟩
  simp only [hrarity, hmetadata, holders, hseeders, hbitmaps]
  exact h.rarity

theorem prepareStep_surveyed {file : Bytes} {resuming : Bool} {piece : Nat} {data : Bytes} (input : Input)
    (hphase : d.phase = .reading resuming piece data) (h : d.verified.length = d.metadata.pieceCount) :
    PhaseSurveyed (d.prepareStep ssl file resuming piece data input)
      (d.prepareStep ssl file resuming piece data input).phase := by
  unfold prepareStep
  split
  · refine ⟨⟨h, List.length_replicate, ?_⟩, fun i _ => ?_⟩
    · refine List.ext_getElem (by simp) fun i hi _ => ?_
      have hnobody : ∀ seeder < d.seeders.length,
          ((List.replicate d.seeders.length ([] : List Bool)).getD seeder []).getD i false = false := by
        intro seeder hseeder
        simp [List.getD_eq_getElem?_getD, hseeder]
      simp only [List.getElem_replicate, List.getElem_map, List.getElem_range, holders]
      rw [List.filter_eq_nil_iff.mpr fun seeder hseeder => by rw [hnobody seeder (List.mem_range.mp hseeder)]; simp]
      rfl
    · rw [List.getD_eq_getElem?_getD, List.getElem?_replicate]
      split <;> rfl
  · split
    · split
      · simpa [PhaseSurveyed] using h
      · exact h
    · split
      · split
        · exact h
        · exact h
      · rw [hphase]
        exact h

theorem bitmapStep_surveyed {seeder : Nat} (input : Input) (hphase : d.phase = .asking seeder) (h : d.Surveyed)
    (hlater : ∀ i, seeder ≤ i → d.seederBitmaps.getD i [] = []) :
    PhaseSurveyed (d.bitmapStep seeder input) (d.bitmapStep seeder input).phase := by
  unfold bitmapStep
  split
  · exact h.frame rfl rfl rfl rfl rfl
  · next hseeder =>
    split
    · next now located outcome =>
      dsimp only
      split
      · next bitmap hbitmap =>
        refine ⟨h.count (by omega) (hlater seeder (Nat.le_refl _)) (fetchBitmap_success hbitmap) _
          (length_seederAt _ _ _), fun i hi => ?_⟩
        have hne : seeder ≠ i := by omega
        rw [List.getD_eq_getElem?_getD, List.getElem?_set_ne hne, ← List.getD_eq_getElem?_getD]
        exact hlater i (by omega)
      · exact ⟨h.frame rfl rfl rfl rfl (length_seederAt _ _ _), fun i hi => hlater i (by omega)⟩
    · rw [hphase]
      exact ⟨h, hlater⟩

/-- What a step of a worker leaves alone. -/
theorem workerStep_survey (file : Bytes) (k : Nat) (input : Input) :
    let d' := (d.workerStep ssl file k input).1
    d'.verified = d.verified ∧ d'.seederBitmaps = d.seederBitmaps ∧ d'.rarity = d.rarity ∧ d'.order = d.order ∧
      d'.seeders.length = d.seeders.length ∧ d'.resumedPieces = d.resumedPieces := by
  have hcases := workerStep_cases ssl d file k input
  generalize d.workerStep ssl file k input = result at hcases ⊢
  cases hcases with
  | @answer piece attempt seeder now located outcome =>
    obtain ⟨w, failures, hanswer⟩ := @answerStep_eq d ssl k piece attempt seeder now located outcome
    rw [hanswer]
    exact ⟨rfl, rfl, rfl, rfl, length_seederAt _ _ _, rfl⟩
  | _ => exact ⟨rfl, rfl, rfl, rfl, rfl, rfl⟩

theorem PhaseSurveyed.frame {d' : Download} {phase : Phase} (h : PhaseSurveyed d phase)
    (hsubject : d'.subject = d.subject) (hverified : d'.verified = d.verified)
    (hbitmaps : d'.seederBitmaps = d.seederBitmaps) (hrarity : d'.rarity = d.rarity) (horder : d'.order = d.order)
    (hseeders : d'.seeders.length = d.seeders.length) : PhaseSurveyed d' phase := by
  have hkeep : d.Surveyed → d'.Surveyed := fun hs => hs.frame hsubject hverified hbitmaps hrarity hseeders
  have hrarest : d'.rarestFirst = d.rarestFirst := by simp only [rarestFirst, hverified, hrarity]
  cases phase with
  | starting | opening | truncating => trivial
  | reading =>
    simp only [subject, Prod.mk.injEq] at hsubject
    change d'.verified.length = d'.metadata.pieceCount
    rw [hverified, hsubject.2.2.2]
    exact h
  | asking =>
    refine ⟨hkeep h.1, ?_⟩
    rw [hbitmaps]
    exact h.2
  | publishing | sharing => exact hkeep h
  | finished failure =>
    cases failure with
    | none => exact ⟨hkeep h.1, by rw [horder, hrarest]; exact h.2⟩
    | some reason => trivial
  | _ => exact ⟨hkeep h.1, by rw [horder, hrarest]; exact h.2⟩

theorem mainStep_surveyed (view : View) (input : Input) (h : PhaseSurveyed d d.phase) :
    PhaseSurveyed (d.mainStep ssl view input).1 (d.mainStep ssl view input).1.phase := by
  -- Most steps only move on to a phase that knows as much as the one before.
  have hmove : ∀ phase, PhaseSurveyed d phase → PhaseSurveyed { d with phase } phase :=
    fun phase hp => hp.frame rfl rfl rfl rfl rfl rfl
  have hcases := mainStep_cases ssl d view input
  generalize d.mainStep ssl view input = result at hcases ⊢
  cases hcases with
  | stay => exact h
  | look | notOpened | opened | notTruncated | giveUp | notChecked | notHashed | mismatch | notMoved => trivial
  | truncated => exact List.length_replicate
  | prepare hphase =>
    rw [hphase] at h
    exact prepareStep_surveyed input hphase h
  | bitmap hphase =>
    rw [hphase] at h
    exact bitmapStep_surveyed input hphase h.1 h.2
  | start hphase =>
    rw [hphase] at h
    exact ⟨Surveyed.frame h rfl rfl rfl rfl rfl, rfl⟩
  | publish hphase | join hphase | check hphase | hashOn hphase | accept hphase | move hphase | shareAgain hphase
  | add hphase | finish hphase =>
    rw [hphase] at h
    exact hmove _ h

theorem step_surveyed (view : View) (action : Action) (h : PhaseSurveyed d d.phase) :
    PhaseSurveyed (d.step ssl view action).1 (d.step ssl view action).1.phase := by
  cases action with
  | cancel => exact h.frame rfl rfl rfl rfl rfl rfl
  | main input => exact mainStep_surveyed view input h
  | worker k input =>
    obtain ⟨hsubject, hphase, -⟩ := @workerStep_frame d ssl view.file k input
    obtain ⟨hverified, hbitmaps, hrarity, horder, hseeders, -⟩ := @workerStep_survey d ssl view.file k input
    simp only [step, hphase]
    exact h.frame hsubject hverified hbitmaps hrarity horder hseeders

end Steps

/-- In every state that a new download reaches, the survey fits its phase and the workers exist during
`fetchPieces` only. -/
theorem reachable_surveyed {group name destination : Bytes} {metadata : FileMetadata} {seeders : List SeederAccess}
    (h : Machine.Reachable (advance ssl) (create group name destination metadata seeders) d) :
    PhaseSurveyed d d.phase ∧ d.Idle := by
  have hstart : PhaseSurveyed (create group name destination metadata seeders) .starting := trivial
  refine Machine.invariant (P := fun d => PhaseSurveyed d d.phase ∧ d.Idle) ⟨hstart, fun _ w hw => ?_⟩ ?_ h
  · simp [create] at hw
  · exact fun d i hd => ⟨step_surveyed i.1 i.2 hd.1, step_idle i.1 i.2 hd.2⟩

theorem Surveyed.length_rarity (h : d.Surveyed) : d.rarity.length = d.metadata.pieceCount := by simp [h.rarity]

theorem Surveyed.countAccesses (h : d.Surveyed) {outcome : Outcome} : ∀ a ∈ d.countAccesses outcome, a.InRange := by
  unfold Download.countAccesses
  split
  · next bitmap hbitmap =>
    intro a ha
    have hlen := fetchBitmap_success hbitmap
    simp only [List.mem_flatMap, List.mem_range, List.mem_cons, List.not_mem_nil, or_false] at ha
    obtain ⟨piece, hpiece, rfl | rfl⟩ := ha
    · change piece < d.rarity.length
      rw [h.length_rarity]
      omega
    · exact hpiece
  · intro a ha
    simp at ha

theorem Surveyed.holderAccesses (h : d.Surveyed) (piece : Nat) : ∀ a ∈ d.holderAccesses piece, a.InRange := by
  intro a ha
  simp only [Download.holderAccesses, List.mem_flatMap, List.mem_range, List.mem_cons] at ha
  obtain ⟨seeder, hseeder, rfl | ha⟩ := ha
  · change seeder < d.seederBitmaps.length
    rw [h.bitmaps]
    exact hseeder
  · split at ha
    · next hpiece =>
      obtain rfl := List.mem_singleton.mp ha
      exact hpiece
    · simp at ha

theorem accesses_inRange (h : PhaseSurveyed d d.phase) (hidle : d.Idle) (action : Action) :
    ∀ a ∈ d.accesses action, a.InRange := by
  intro a ha
  cases action with
  | cancel => simp [accesses] at ha
  | main input =>
    simp only [accesses] at ha
    split at ha
    · next resuming piece data hphase =>
      rw [hphase] at h
      have hcount : d.verified.length = d.metadata.pieceHashes.length := h
      split at ha
      · next hguard =>
        simp only [Bool.and_eq_true, decide_eq_true_eq] at hguard
        simp only [List.mem_cons, List.not_mem_nil, or_false] at ha
        rcases ha with rfl | rfl
        · exact hguard.2
        · exact hcount ▸ hguard.2
      · simp at ha
    · next seeder hphase =>
      rw [hphase] at h
      split at ha
      · simp at ha
      · next hseeder =>
        rcases List.mem_cons.mp ha with rfl | ha
        · change seeder < d.seederBitmaps.length
          rw [h.1.bitmaps]
          omega
        · split at ha
          · exact h.1.countAccesses a ha
          · simp at ha
    · next hphase =>
      rw [hphase] at h
      have hs : d.Surveyed := h
      rcases List.mem_append.mp ha with ha | ha
      · obtain ⟨piece, hpiece, rfl⟩ := List.mem_map.mp ha
        exact List.mem_range.mp hpiece
      · obtain ⟨piece, hpiece, rfl⟩ := List.mem_map.mp ha
        change piece < d.rarity.length
        rw [hs.length_rarity]
        exact (hs.mem_rarestFirst.mp hpiece).1
    · simp at ha
  | worker k input =>
    simp only [accesses] at ha
    split at ha
    · next piece attempt hw =>
      have hphase : d.phase = .fetching := by
        by_contra hne
        have := hidle hne _ (List.mem_of_getElem? hw)
        simp at this
      rw [hphase] at h
      exact h.1.holderAccesses piece a ha
    · simp at ha

/-- Whatever the seeders answer, `rarestFirst` returns the pieces that are not verified, by the number of seeders that
`fetchPiece` will find for them and then by index, and every access to the vectors is within them. -/
theorem rarest_first_order (ssl : OpenSsl) (group name destination : Bytes) (metadata : FileMetadata)
    (seeders : List SeederAccess) (inputs : List (View × Action)) :
    let d := Machine.run (advance ssl) (create group name destination metadata seeders) inputs
    (d.phase = .sharing → d.Rarest d.rarestFirst) ∧
    (d.phase = .fetching → d.order = d.rarestFirst ∧ d.Rarest d.order) ∧
    ∀ action, ∀ a ∈ d.accesses action, a.InRange := by
  intro d
  have hreach : Machine.Reachable (advance ssl) (create group name destination metadata seeders) d := ⟨inputs, rfl⟩
  obtain ⟨h, hidle⟩ := reachable_surveyed hreach
  refine ⟨fun hphase => ?_, fun hphase => ?_, accesses_inRange h hidle⟩
  · rw [hphase] at h
    exact Surveyed.rarest h
  · rw [hphase] at h
    exact ⟨h.2, h.2 ▸ h.1.rarest⟩

section Example

def nobody : SeederAccess := ⟨⟨lit "10.0.0.1", 6881⟩, [], []⟩

def newFile : View := ⟨none, [], []⟩

/-- Two pieces and three seeders: the first has both pieces, the second only piece 0, the third denies. -/
def bitmapsOfThree : List (View × Action) := [
  (newFile, .main .ok), (newFile, .main .ok), (newFile, .main .ok), (newFile, .main .ok),
  (newFile, .main (.reply 0 none (.success, [1, 1]))), (newFile, .main (.reply 0 none (.success, [1, 0]))),
  (newFile, .main (.reply 0 none (.unavailable, []))), (newFile, .main .ok), (newFile, .main .ok),
  (newFile, .main .ok)]

def surveyOfThree : Download :=
  Machine.run (advance (Recording.replay {})) (create [] [] [] ⟨5, [], [[], []]⟩ [nobody, nobody, nobody])
    bitmapsOfThree

/-- Piece 1 has one holder and goes first. -/
theorem rarest_first_three : surveyOfThree.order = [1, 0] ∧ surveyOfThree.Rarest surveyOfThree.order := by
  have hrun : surveyOfThree.phase = .fetching ∧ surveyOfThree.order = [1, 0] := by decide +kernel
  have hrarest := rarest_first_order (Recording.replay {}) [] [] [] ⟨5, [], [[], []]⟩ [nobody, nobody, nobody]
    bitmapsOfThree
  exact ⟨hrun.2, (hrarest.2.1 hrun.1).2⟩

end Example

end Download

end TorrentAtlas
