import TorrentAtlas.TcpServer
import TorrentAtlas.Termination

/-!
# The end of a client (`~Client`, `~DownloadManager`, `PeerServer::stop`)

The members of a client are destroyed from the last to the first: the downloads are
cancelled and joined, the peer server is stopped and joined, then go the table of shared
files, the tracker client and the key. Until then the threads of all of them go on.
-/
namespace TorrentAtlas

open Encoding Crypto Download

namespace Shutdown

/-- Where the prompt thread stands: in `run`, or in the destructor of a member. -/
inductive Stage
  | prompting
  /-- `~DownloadManager`: about to cancel a download, then to join its thread. -/
  | cancelling (i : Nat)
  | joining (i : Nat)
  /-- `~PeerServer`: about to call `server_.stop()`, then to join the thread of `serve`. -/
  | stopping
  | joiningServer
  | freeingShared
  | freeingTracker
  | ended
  deriving DecidableEq, Repr

inductive Action
  /-- What the user may do before the end. -/
  | start (group name destination : Bytes) (metadata : FileMetadata) (seeders : List SeederAccess)
  | cancel (i : Nat)
  | quit
  | destroy
  /-- Steps of the other threads: of download `i` and its workers, of the peer server. -/
  | main (i : Nat) (view : View) (input : Input)
  | worker (i : Nat) (view : View) (k : Nat) (input : Input)
  | serve (input : TcpServer.Input)
  | handler (k : Nat) (returns : Bool)

inductive Member
  | downloads
  | peerServer
  | shared
  | tracker
  | peerKey
  deriving DecidableEq, Repr

end Shutdown

open Shutdown in
/-- The threads of a client, and how far its end has come. -/
structure Shutdown where
  downloads : List Download
  server : TcpServer
  stage : Stage

namespace Shutdown

/-- After `peerServer_.start`. -/
def create : Shutdown := ⟨[], .create, .prompting⟩

variable (ssl : OpenSsl) (s : Shutdown)

def downloadStep (i : Nat) (view : View) (action : Download.Action) : Shutdown :=
  match s.downloads[i]? with
  | some d => { s with downloads := s.downloads.set i (d.step ssl view action).1 }
  | none => s

/-- The next step of the destructors. -/
def destroyStep : Shutdown :=
  match s.stage with
  | .prompting | .ended => s
  | .cancelling i =>
    match s.downloads[i]? with
    | some d => { s with downloads := s.downloads.set i { d with cancelled := true }, stage := .cancelling (i + 1) }
    | none => { s with stage := .joining 0 }
  | .joining i =>
    match s.downloads[i]? with
    | some d => if d.isFinished then { s with stage := .joining (i + 1) } else s
    | none => { s with stage := .stopping }
  | .stopping => { s with server := (s.server.step .stop).1, stage := .joiningServer }
  | .joiningServer => if s.server.phase = .returned then { s with stage := .freeingShared } else s
  | .freeingShared => { s with stage := .freeingTracker }
  | .freeingTracker => { s with stage := .ended }

def step : Action → Shutdown × Unit
  | .start group name destination metadata seeders =>
    (if s.stage = .prompting then
      { s with downloads := s.downloads ++ [Download.create group name destination metadata seeders] } else s, ())
  | .cancel i => (if s.stage = .prompting then s.downloadStep ssl i ⟨none, [], []⟩ .cancel else s, ())
  | .quit => (if s.stage = .prompting then { s with stage := .cancelling 0 } else s, ())
  | .destroy => (s.destroyStep, ())
  | .main i view input => (s.downloadStep ssl i view (.main input), ())
  | .worker i view k input => (s.downloadStep ssl i view (.worker k input), ())
  | .serve input => ({ s with server := s.server.serveStep input }, ())
  | .handler k returns => ({ s with server := s.server.handlerStep k returns }, ())

/-- The members that are gone. -/
def Stage.freed : Stage → List Member
  | .prompting | .cancelling _ | .joining _ => []
  | .stopping | .joiningServer => [.downloads]
  | .freeingShared => [.downloads, .peerServer]
  | .freeingTracker => [.downloads, .peerServer, .shared]
  | .ended => [.downloads, .peerServer, .shared, .tracker, .peerKey]

/-- The members that the threads of a download may use. -/
def downloadUses (i : Nat) : List Member :=
  match s.downloads[i]? with
  | some d => if d.isFinished then [] else [.downloads, .shared, .tracker]
  | none => []

/-- The members that a thread may use in its next step, if it is still there. -/
def uses : Action → List Member
  | .main i _ _ | .worker i _ _ _ => s.downloadUses i
  | .serve _ => if s.server.phase = .returned then [] else [.peerServer]
  | .handler k _ =>
    match s.server.handlers[k]? with
    | some .running | some .finishing => [.peerServer, .shared, .peerKey]
    | _ => []
  | _ => []

/-- `~DownloadManager` is done. -/
def Stage.hasJoined : Stage → Bool
  | .prompting | .cancelling _ | .joining _ => false
  | _ => true

/-- `server_.stop()` has been called. -/
def Stage.hasStopped : Stage → Bool
  | .prompting | .cancelling _ | .joining _ | .stopping => false
  | _ => true

/-- `~PeerServer` is done. -/
def Stage.hasJoinedServer : Stage → Bool
  | .freeingShared | .freeingTracker | .ended => true
  | _ => false

/-- What each stage of the end may rely on. -/
structure Orderly (s : Shutdown) : Prop where
  pooled : ∀ d ∈ s.downloads, d.Pooled
  server : s.server.Sound
  joining : ∀ i, s.stage = .joining i → ∀ j < i, ∀ d, s.downloads[j]? = some d → d.isFinished = true
  joined : s.stage.hasJoined = true → ∀ d ∈ s.downloads, d.isFinished = true
  stopped : s.stage.hasStopped = true → s.server.stopping = true
  returned : s.stage.hasJoinedServer = true → s.server.phase = .returned

variable {ssl s}

/-- One download moves on; a finished one stays finished. -/
theorem Orderly.setDownload (h : s.Orderly) {i : Nat} {d d' : Download} (hd : s.downloads[i]? = some d)
    (hpooled : d'.Pooled) (hfinished : d.isFinished = true → d'.isFinished = true) :
    Orderly { s with downloads := s.downloads.set i d' } := by
  have hset : ∀ {j : Nat} {e : Download}, (s.downloads.set i d')[j]? = some e →
      e = d' ∧ j = i ∨ s.downloads[j]? = some e := by
    intro j e he
    by_cases hj : i = j
    · subst hj
      rw [List.getElem?_set_self (List.getElem?_eq_some_iff.mp hd).1] at he
      exact Or.inl ⟨(Option.some.inj he).symm, rfl⟩
    · rw [List.getElem?_set_ne hj] at he
      exact Or.inr he
  refine ⟨fun e he => ?_, h.server, fun stage hstage j hj e he => ?_, fun hjoined e he => ?_, h.stopped, h.returned⟩
  · rcases List.mem_or_eq_of_mem_set he with he | rfl
    · exact h.pooled e he
    · exact hpooled
  · rcases hset he with ⟨rfl, rfl⟩ | he
    · exact hfinished (h.joining stage hstage _ hj d hd)
    · exact h.joining stage hstage j hj e he
  · rcases List.mem_or_eq_of_mem_set he with he | rfl
    · exact h.joined hjoined e he
    · exact hfinished (h.joined hjoined d (List.mem_of_getElem? hd))

theorem Orderly.downloadStep (h : s.Orderly) (i : Nat) (view : View) (action : Download.Action) :
    (s.downloadStep ssl i view action).Orderly := by
  unfold Shutdown.downloadStep
  split
  · next d hd =>
    have hpooled := h.pooled d (List.mem_of_getElem? hd)
    exact h.setDownload hd (hpooled.step view action) (fun hfinished => step_isFinished hfinished)
  · exact h

/-- The prompt thread moves on to a stage whose conditions are met. -/
theorem Orderly.enter (h : s.Orderly) {stage : Stage}
    (hjoining : ∀ i, stage = .joining i → ∀ j < i, ∀ d, s.downloads[j]? = some d → d.isFinished = true)
    (hjoined : stage.hasJoined = true → ∀ d ∈ s.downloads, d.isFinished = true)
    (hstopped : stage.hasStopped = true → s.server.stopping = true)
    (hreturned : stage.hasJoinedServer = true → s.server.phase = .returned) : Orderly { s with stage } :=
  ⟨h.pooled, h.server, hjoining, hjoined, hstopped, hreturned⟩

theorem Orderly.destroyStep (h : s.Orderly) : s.destroyStep.Orderly := by
  unfold Shutdown.destroyStep
  cases hstage : s.stage with
  | prompting | ended => exact h
  | cancelling i =>
    dsimp only
    split
    · next d hd =>
      have hpooled := h.pooled d (List.mem_of_getElem? hd)
      have hcancelled : Download.Pooled { d with cancelled := true } := ⟨hpooled.idle, hpooled.threads⟩
      have hcancel := h.setDownload hd hcancelled id
      exact hcancel.enter (by simp) (by simp [Stage.hasJoined]) (by simp [Stage.hasStopped])
        (by simp [Stage.hasJoinedServer])
    · exact h.enter (by simp) (by simp [Stage.hasJoined]) (by simp [Stage.hasStopped]) (by simp [Stage.hasJoinedServer])
  | joining i =>
    dsimp only
    split
    · next d hd =>
      split
      · next hfinished =>
        refine h.enter (fun i' hi' j hj e he => ?_) (by simp [Stage.hasJoined]) (by simp [Stage.hasStopped])
          (by simp [Stage.hasJoinedServer])
        obtain rfl := Stage.joining.inj hi'
        rcases Nat.lt_succ_iff_lt_or_eq.mp hj with hlt | rfl
        · exact h.joining i hstage j hlt e he
        · rw [hd] at he
          rw [← Option.some.inj he]
          exact hfinished
      · exact h
    · next hnone =>
      refine h.enter (by simp) (fun _ d hd => ?_) (by simp [Stage.hasStopped]) (by simp [Stage.hasJoinedServer])
      obtain ⟨j, hj⟩ := List.mem_iff_getElem?.mp hd
      have hlt := (List.getElem?_eq_some_iff.mp hj).1
      have hlast := List.getElem?_eq_none_iff.mp hnone
      exact h.joining i hstage j (by omega) d hj
  | stopping =>
    have hjoined := h.joined (by rw [hstage]; rfl)
    exact ⟨h.pooled, h.server.step .stop, by simp, fun _ => hjoined, fun _ => rfl, by simp [Stage.hasJoinedServer]⟩
  | joiningServer =>
    dsimp only
    split
    · next hreturned =>
      exact h.enter (by simp) (fun _ => h.joined (by rw [hstage]; rfl)) (fun _ => h.stopped (by rw [hstage]; rfl))
        (fun _ => hreturned)
    · exact h
  | freeingShared | freeingTracker =>
    exact h.enter (by simp) (fun _ => h.joined (by rw [hstage]; rfl)) (fun _ => h.stopped (by rw [hstage]; rfl))
      (fun _ => h.returned (by rw [hstage]; rfl))

theorem create_orderly : create.Orderly :=
  ⟨by simp [create], TcpServer.create_sound, by simp [create], by simp [create, Stage.hasJoined],
    by simp [create, Stage.hasStopped], by simp [create, Stage.hasJoinedServer]⟩

theorem Orderly.step (h : s.Orderly) (action : Action) : (s.step ssl action).1.Orderly := by
  cases action with
  | start group name destination metadata seeders =>
    simp only [Shutdown.step]
    split
    · next hstage =>
      refine ⟨fun d hd => ?_, h.server, by simp [hstage], by simp [hstage, Stage.hasJoined],
        by simp [hstage, Stage.hasStopped], by simp [hstage, Stage.hasJoinedServer]⟩
      rcases List.mem_append.mp hd with hd | hd
      · exact h.pooled d hd
      · rw [List.mem_singleton.mp hd]
        exact create_pooled group name destination metadata seeders
    · exact h
  | cancel i =>
    simp only [Shutdown.step]
    split
    · exact h.downloadStep i _ .cancel
    · exact h
  | quit =>
    simp only [Shutdown.step]
    split
    · exact h.enter (by simp) (by simp [Stage.hasJoined]) (by simp [Stage.hasStopped]) (by simp [Stage.hasJoinedServer])
    · exact h
  | destroy => exact h.destroyStep
  | main i view input => exact h.downloadStep i view (.main input)
  | worker i view k input => exact h.downloadStep i view (.worker k input)
  | serve input =>
    refine ⟨h.pooled, h.server.serveStep input, h.joining, h.joined, fun hstage => ?_, fun hstage => ?_⟩
    · exact (TcpServer.serveStep_stopping s.server input).trans (h.stopped hstage)
    · exact TcpServer.step_returned (.serve input) (h.returned hstage)
  | handler k returns =>
    refine ⟨h.pooled, h.server.handlerStep k returns, h.joining, h.joined, fun hstage => ?_, fun hstage => ?_⟩
    · exact (TcpServer.handlerStep_stopping s.server k returns).trans (h.stopped hstage)
    · exact TcpServer.step_returned (.handler k returns) (h.returned hstage)

/-- A finished handler of a server that has returned uses nothing. -/
theorem Orderly.handler_finished (h : s.Orderly) (hstage : s.stage.hasJoinedServer = true) {k : Nat}
    {handler : TcpServer.Handler} (hk : s.server.handlers[k]? = some handler) : handler = .finished := by
  have hreturned := h.returned hstage
  have hactive := h.server.active
  rw [h.server.returned hreturned, hreturned] at hactive
  exact TcpServer.unfinished_eq_zero.mp (by simpa using hactive.symm) handler (List.mem_of_getElem? hk)

/-- No thread uses a member that is gone. -/
theorem Orderly.uses_alive (h : s.Orderly) (action : Action) : ∀ m ∈ s.uses action, m ∉ s.stage.freed := by
  have hdownload : ∀ i : Nat, ∀ m ∈ s.downloadUses i, m ∉ s.stage.freed := by
    intro i m hm
    unfold downloadUses at hm
    split at hm
    · next d hd =>
      split at hm
      · simp at hm
      · next hrunning =>
        have hstage : s.stage.hasJoined = false := by
          by_contra hjoined
          exact hrunning (h.joined (by simpa using hjoined) d (List.mem_of_getElem? hd))
        cases hs : s.stage <;> simp_all [Stage.hasJoined, Stage.freed]
    · simp at hm
  cases action with
  | main i view input => exact hdownload i
  | worker i view k input => exact hdownload i
  | serve input =>
    intro m hm
    simp only [uses] at hm
    split at hm
    · simp at hm
    · next hphase =>
      have hstage : s.stage.hasJoinedServer = false := by
        by_contra hjoined
        exact hphase (h.returned (by simpa using hjoined))
      obtain rfl := List.mem_singleton.mp hm
      cases hs : s.stage <;> simp_all [Stage.hasJoinedServer, Stage.freed]
  | handler k returns =>
    intro m hm
    have hstage : s.stage.hasJoinedServer = false := by
      by_contra hjoined
      simp only [uses] at hm
      split at hm
      · next hk => simpa using h.handler_finished (by simpa using hjoined) hk
      · next hk => simpa using h.handler_finished (by simpa using hjoined) hk
      · simp at hm
    have hmember : m = .peerServer ∨ m = .shared ∨ m = .peerKey := by
      simp only [uses] at hm
      split at hm
      · simpa using hm
      · simpa using hm
      · simp at hm
    cases hs : s.stage <;> rcases hmember with rfl | rfl | rfl <;> simp_all [Stage.hasJoinedServer, Stage.freed]
  | _ => simp [uses]

section End

variable (cap longest : Nat)

/-- What is left of the destructors, with `n` downloads. -/
def Stage.rank (n : Nat) : Stage → Nat
  | .prompting => 0
  | .cancelling i => 6 + n + (n - i)
  | .joining i => 5 + (n - i)
  | .stopping => 4
  | .joiningServer => 3
  | .freeingShared => 2
  | .freeingTracker => 1
  | .ended => 0

/-- What is left of the downloads and the destructors. -/
def rank (s : Shutdown) : Nat :=
  (s.downloads.map (Download.rank cap longest)).sum + s.stage.rank s.downloads.length

/-- What is left of everything, once the server has been stopped. -/
def fullRank (s : Shutdown) : Nat := s.rank cap longest + s.server.rank

/-- The answers to the downloads fit their bounds. -/
def Capped (s : Shutdown) : Action → Prop
  | .main i view input => ∀ d, s.downloads[i]? = some d → Download.Capped cap longest d (view, .main input)
  | .worker i view k input => ∀ d, s.downloads[i]? = some d → Download.Capped cap longest d (view, .worker k input)
  | _ => True

/-- The action is a turn of this thread of download `i`. -/
def takesTurn (s : Shutdown) (i : Nat) (thread : Thread) : Action → Bool
  | .main j _ input => j = i && (s.downloads[i]?).any (·.takesTurn thread (.main input))
  | .worker j _ k input => j = i && (s.downloads[i]?).any (·.takesTurn thread (.worker k input))
  | _ => false

def Action.isDestroy : Action → Bool
  | .destroy => true
  | _ => false

def Action.isServe : Action → Bool
  | .serve _ => true
  | _ => false

def Action.returns (k : Nat) : Action → Bool
  | .handler j returns => j = k && returns
  | _ => false

/-- Every thread of the client has had a turn, and the handlers that ran have returned. -/
structure Fair (round : List (Event Shutdown Action Unit)) : Prop where
  prompt : ∃ e ∈ round, e.input.isDestroy = true
  serve : ∃ e ∈ round, e.input.isServe = true
  handlers : ∀ e ∈ round, ∀ k < e.before.server.handlers.length, ∃ e' ∈ round, e'.input.returns k = true
  downloads : ∀ e ∈ round, ∀ i < e.before.downloads.length, ∀ thread ∈ threads,
    ∃ e' ∈ round, e'.before.takesTurn i thread e'.input = true

variable {cap longest}

/-- A step of a download leaves everything as it is or uses some of the rank up. -/
theorem downloadStep_lowers (ssl : OpenSsl) {i : Nat} {view : View} {action : Download.Action}
    (h : ∀ d ∈ s.downloads, d.Pooled)
    (hcapped : ∀ d, s.downloads[i]? = some d → Download.Capped cap longest d (view, action)) :
    s.downloadStep ssl i view action = s ∨
      (s.downloadStep ssl i view action).rank cap longest < s.rank cap longest ∧
        (s.downloadStep ssl i view action).server = s.server := by
  unfold downloadStep
  split
  · next d hd =>
    have hsum := Machine.sum_map_set (Download.rank cap longest) hd (d.step ssl view action).1
    rcases (Download.runsDown cap longest ssl).lowers d (view, action) (h d (List.mem_of_getElem? hd)) (hcapped d hd)
      with ⟨hsame, -⟩ | hlower
    · left
      obtain ⟨hlt, hget⟩ := List.getElem?_eq_some_iff.mp hd
      have hset : s.downloads.set i (d.step ssl view action).1 = s.downloads := by
        rw [show (d.step ssl view action).1 = s.downloads[i] from hsame.trans hget.symm]
        exact List.set_getElem_self hlt
      rw [hset]
    · right
      have hlower' : (d.step ssl view action).1.rank cap longest < d.rank cap longest := hlower
      refine ⟨?_, rfl⟩
      simp only [rank, List.length_set]
      omega
  · exact Or.inl rfl

theorem destroyStep_lowers (cap longest : Nat) (hprompting : s.stage ≠ .prompting) :
    s.destroyStep = s ∨ s.destroyStep.rank cap longest < s.rank cap longest := by
  unfold destroyStep
  cases hstage : s.stage with
  | prompting => exact absurd hstage hprompting
  | ended => exact Or.inl rfl
  | cancelling i =>
    right
    dsimp only
    split
    · next d hd =>
      have hlt := (List.getElem?_eq_some_iff.mp hd).1
      have hsum := Machine.sum_map_set (Download.rank cap longest) hd { d with cancelled := true }
      have hcancel : Download.rank cap longest { d with cancelled := true } ≤ d.rank cap longest := by
        simp only [Download.rank, Download.phaseRank, Bool.not_true, Bool.toNat_false]
        omega
      simp only [rank, hstage, Stage.rank, List.length_set]
      omega
    · simp only [rank, hstage, Stage.rank]
      omega
  | joining i =>
    dsimp only
    split
    · next d hd =>
      have hlt := (List.getElem?_eq_some_iff.mp hd).1
      split
      · right
        simp only [rank, hstage, Stage.rank]
        omega
      · exact Or.inl rfl
    · right
      simp only [rank, hstage, Stage.rank]
      omega
  | joiningServer =>
    dsimp only
    split
    · right
      simp only [rank, hstage, Stage.rank]
      omega
    · exact Or.inl rfl
  | stopping | freeingShared | freeingTracker =>
    right
    simp only [rank, hstage, Stage.rank]
    omega

theorem destroyStep_stage (hprompting : s.stage ≠ .prompting) : s.destroyStep.stage ≠ .prompting := by
  unfold destroyStep
  split
  · exact hprompting
  · exact hprompting
  · split <;> simp
  · split
    · split
      · simp
      · exact hprompting
    · simp
  · simp
  · split
    · simp
    · exact hprompting
  · simp
  · simp

theorem downloadStep_frame (i : Nat) (view : View) (action : Download.Action) :
    (s.downloadStep ssl i view action).stage = s.stage ∧ (s.downloadStep ssl i view action).server = s.server := by
  unfold downloadStep
  split <;> exact ⟨rfl, rfl⟩

theorem step_stage (action : Action) (hprompting : s.stage ≠ .prompting) :
    (s.step ssl action).1.stage ≠ .prompting := by
  cases action with
  | start | cancel | quit =>
    simp only [step, if_neg hprompting]
    exact hprompting
  | destroy => exact destroyStep_stage hprompting
  | main i view input =>
    simp only [step, (downloadStep_frame i view (.main input)).1]
    exact hprompting
  | worker i view k input =>
    simp only [step, (downloadStep_frame i view (.worker k input)).1]
    exact hprompting
  | serve | handler => exact hprompting

/-- After `quit`, the downloads and the destructors run down, whatever the server does meanwhile. -/
theorem runsDown (cap longest : Nat) (ssl : OpenSsl) :
    Machine.RunsDown (step ssl) (Capped cap longest) (fun s => s.Orderly ∧ s.stage ≠ .prompting)
      (fun s => (s.downloads, s.stage)) (rank cap longest) where
  keeps s action h _ := ⟨h.1.step action, step_stage action h.2⟩
  lowers s action h hcapped := by
    have hdownload : ∀ i view a, (∀ d, s.downloads[i]? = some d → Download.Capped cap longest d (view, a)) →
        ((s.downloadStep ssl i view a).downloads, (s.downloadStep ssl i view a).stage) = (s.downloads, s.stage) ∧
          (s.downloadStep ssl i view a).rank cap longest ≤ s.rank cap longest ∨
        (s.downloadStep ssl i view a).rank cap longest < s.rank cap longest := by
      intro i view a hcap
      rcases downloadStep_lowers ssl h.1.pooled hcap with hsame | ⟨hlower, -⟩
      · rw [hsame]
        exact Or.inl ⟨rfl, Nat.le_refl _⟩
      · exact Or.inr hlower
    cases action with
    | start | cancel | quit =>
      left
      simp only [step, if_neg h.2]
      exact ⟨trivial, Nat.le_refl _⟩
    | destroy =>
      simp only [step]
      rcases destroyStep_lowers cap longest h.2 with hsame | hlower
      · rw [hsame]
        exact Or.inl ⟨rfl, Nat.le_refl _⟩
      · exact Or.inr hlower
    | main i view input => exact hdownload i view (.main input) hcapped
    | worker i view k input => exact hdownload i view (.worker k input) hcapped
    | serve | handler => exact Or.inl ⟨rfl, Nat.le_refl _⟩

/-- A turn of a thread of download `i` that changes no download was a turn of that download. -/
theorem turn_of_unchanged {i : Nat} {thread : Thread} {action : Action} {d : Download} (hd : s.downloads[i]? = some d)
    (hturn : s.takesTurn i thread action = true) (hsame : (s.step ssl action).1.downloads = s.downloads) :
    ∃ view a, d.takesTurn thread a = true ∧ (d.step ssl view a).1 = d := by
  have hkept : ∀ view a, (s.downloadStep ssl i view a).downloads = s.downloads → (d.step ssl view a).1 = d := by
    intro view a hdownloads
    have hget : (s.downloadStep ssl i view a).downloads[i]? = some d := by rw [hdownloads, hd]
    unfold downloadStep at hget
    rw [hd] at hget
    dsimp only at hget
    rw [List.getElem?_set_self (List.getElem?_eq_some_iff.mp hd).1] at hget
    exact Option.some.inj hget
  cases action with
  | main j view input =>
    simp only [takesTurn, hd, Option.any_some, Bool.and_eq_true, decide_eq_true_eq] at hturn
    obtain ⟨rfl, htakes⟩ := hturn
    exact ⟨view, _, htakes, hkept view _ hsame⟩
  | worker j view k input =>
    simp only [takesTurn, hd, Option.any_some, Bool.and_eq_true, decide_eq_true_eq] at hturn
    obtain ⟨rfl, htakes⟩ := hturn
    exact ⟨view, _, htakes, hkept view _ hsame⟩
  | _ => simp [takesTurn] at hturn

/-- The destructors move on, unless they wait for a download or the server. -/
theorem destroyStep_moves (hprompting : s.stage ≠ .prompting) (hsame : s.destroyStep.stage = s.stage)
    (hfinished : ∀ d ∈ s.downloads, d.isFinished = true) : s.stage.hasStopped = true := by
  unfold destroyStep at hsame
  cases hstage : s.stage with
  | prompting => exact absurd hstage hprompting
  | cancelling i =>
    simp only [hstage] at hsame
    split at hsame <;> simp at hsame
  | joining i =>
    simp only [hstage] at hsame
    split at hsame
    · next d hd =>
      rw [if_pos (hfinished d (List.mem_of_getElem? hd))] at hsame
      simp at hsame
    · simp at hsame
  | stopping => simp [hstage] at hsame
  | _ => rfl

/-- A round without a change among the downloads finds them joined and the server stopped. -/
theorem stopped_of_unchanged {inputs : List Action} (h : s.Orderly) (hprompting : s.stage ≠ .prompting)
    (hfair : Fair (Machine.events (step ssl) s inputs))
    (hsame : ∀ e ∈ Machine.events (step ssl) s inputs,
      (e.after.downloads, e.after.stage) = (e.before.downloads, e.before.stage)) :
    s.stage.hasStopped = true ∧ ∀ d ∈ s.downloads, d.isFinished = true := by
  have hevents := Machine.shown_eq (fun s : Shutdown => (s.downloads, s.stage)) hsame
  obtain ⟨e, he, hdestroy⟩ := hfair.prompt
  have hfinished : ∀ d ∈ s.downloads, d.isFinished = true := by
    intro d hd
    obtain ⟨i, hi⟩ := List.mem_iff_getElem?.mp hd
    refine Download.finished_of_turns ssl (h.pooled d hd) fun thread hthread => ?_
    have hbefore := (Prod.mk.inj (hevents e he).2).1
    have hlt : i < e.before.downloads.length := by
      rw [hbefore]
      exact (List.getElem?_eq_some_iff.mp hi).1
    obtain ⟨e', he', hturn⟩ := hfair.downloads e he i hlt thread hthread
    obtain ⟨hevent', hbefore'⟩ := hevents e' he'
    have hsame' := (Prod.mk.inj (hsame e' he')).1
    rw [hevent'] at hsame'
    exact turn_of_unchanged (by rw [(Prod.mk.inj hbefore').1]; exact hi) hturn hsame'
  obtain ⟨hevent, hbefore⟩ := hevents e he
  obtain ⟨hdownloads, hstage⟩ := Prod.mk.inj hbefore
  have hstays := (Prod.mk.inj (hsame e he)).2
  rw [hevent] at hstays
  have hinput : e.input = .destroy := by
    cases haction : e.input with
    | destroy => rfl
    | _ => simp [haction, Action.isDestroy] at hdestroy
  rw [hinput] at hstays
  refine ⟨?_, hfinished⟩
  rw [← hstage]
  exact destroyStep_moves (by rw [hstage]; exact hprompting) hstays (by rw [hdownloads]; exact hfinished)

theorem destroyStep_server (hstopped : s.stage.hasStopped = true) :
    s.destroyStep.server = s.server ∧ s.destroyStep.stage.hasStopped = true := by
  unfold destroyStep
  cases hstage : s.stage with
  | joiningServer =>
    dsimp only
    split
    · exact ⟨rfl, rfl⟩
    · exact ⟨rfl, hstopped⟩
  | freeingShared | freeingTracker => exact ⟨rfl, rfl⟩
  | ended => exact ⟨rfl, hstopped⟩
  | _ => simp [hstage, Stage.hasStopped] at hstopped

theorem not_prompting_of_stopped (hstopped : s.stage.hasStopped = true) : s.stage ≠ .prompting := by
  intro hstage
  simp [hstage, Stage.hasStopped] at hstopped

theorem step_hasStopped (action : Action) (hstopped : s.stage.hasStopped = true) :
    (s.step ssl action).1.stage.hasStopped = true := by
  have hprompting := not_prompting_of_stopped hstopped
  cases action with
  | start | cancel | quit =>
    simp only [step, if_neg hprompting]
    exact hstopped
  | destroy => exact (destroyStep_server hstopped).2
  | main i view input =>
    simp only [step, (downloadStep_frame i view (.main input)).1]
    exact hstopped
  | worker i view k input =>
    simp only [step, (downloadStep_frame i view (.worker k input)).1]
    exact hstopped
  | serve | handler => exact hstopped

/-- After `server_.stop()`, everything runs down. -/
theorem runsDown_all (cap longest : Nat) (ssl : OpenSsl) :
    Machine.RunsDown (step ssl) (Capped cap longest) (fun s => s.Orderly ∧ s.stage.hasStopped = true) id
      (fullRank cap longest) where
  keeps s action h _ := ⟨h.1.step action, step_hasStopped action h.2⟩
  lowers s action h hcapped := by
    suffices hlowers : (s.step ssl action).1 = s ∨ (s.step ssl action).1.fullRank cap longest < s.fullRank cap longest by
      rcases hlowers with hsame | hlower
      · exact Or.inl ⟨hsame, (congrArg (fullRank cap longest) hsame).le⟩
      · exact Or.inr hlower
    have hprompting := not_prompting_of_stopped h.2
    have hdownload : ∀ i view a, (∀ d, s.downloads[i]? = some d → Download.Capped cap longest d (view, a)) →
        s.downloadStep ssl i view a = s ∨
          (s.downloadStep ssl i view a).fullRank cap longest < s.fullRank cap longest := by
      intro i view a hcap
      rcases downloadStep_lowers ssl h.1.pooled hcap with hsame | ⟨hlower, hserver⟩
      · exact Or.inl hsame
      · right
        simp only [fullRank, hserver]
        omega
    cases action with
    | start | cancel | quit =>
      left
      simp only [step, if_neg hprompting]
    | destroy =>
      simp only [step]
      rcases destroyStep_lowers cap longest hprompting with hsame | hlower
      · exact Or.inl hsame
      · right
        simp only [fullRank, (destroyStep_server h.2).1]
        omega
    | main i view input => exact hdownload i view (.main input) hcapped
    | worker i view k input => exact hdownload i view (.worker k input) hcapped
    | serve input =>
      rcases TcpServer.rank_serveStep input h.1.server (h.1.stopped h.2) with hsame | hlower
      · left
        simp only [step, hsame]
      · exact Or.inr (Nat.add_lt_add_left hlower _)
    | handler k returns =>
      rcases TcpServer.rank_handlerStep (s := s.server) (k := k) returns with hsame | hlower
      · left
        simp only [step, hsame]
      · exact Or.inr (Nat.add_lt_add_left hlower _)

/-- A round without any change finds every member gone. -/
theorem ended_of_unchanged {inputs : List Action} (h : s.Orderly) (hstopped : s.stage.hasStopped = true)
    (hfair : Fair (Machine.events (step ssl) s inputs))
    (hsame : ∀ e ∈ Machine.events (step ssl) s inputs, e.after = e.before) : s.stage = .ended := by
  have hevents := Machine.shown_eq (id : Shutdown → Shutdown) hsame
  -- Every event of the round is a step of `s` back to `s`.
  have hstep : ∀ e ∈ Machine.events (step ssl) s inputs, (s.step ssl e.input).1 = s := by
    intro e he
    obtain ⟨hevent, hbefore⟩ := hevents e he
    have hstay := hsame e he
    rw [hevent, show e.before = s from hbefore] at hstay
    exact hstay
  obtain ⟨e, he, hserves⟩ := hfair.serve
  have hreturned : s.server.phase = .returned := by
    cases hinput : e.input with
    | serve input =>
      have hserve : s.server.serveStep input = s.server := by
        have hstay := hstep e he
        rw [hinput] at hstay
        exact congrArg Shutdown.server hstay
      refine TcpServer.returned_of_turns h.server (h.stopped hstopped) hserve fun k hk => ?_
      obtain ⟨e', he', hreturns⟩ := hfair.handlers e he k (by rw [show e.before = s from (hevents e he).2]; exact hk)
      have hhandler := hstep e' he'
      cases hinput' : e'.input with
      | handler j returns =>
        simp only [hinput', Action.returns, Bool.and_eq_true, decide_eq_true_eq] at hreturns
        obtain ⟨rfl, rfl⟩ := hreturns
        rw [hinput'] at hhandler
        exact congrArg Shutdown.server hhandler
      | _ => simp [hinput', Action.returns] at hreturns
    | _ => simp [hinput, Action.isServe] at hserves
  obtain ⟨e', he', hdestroy⟩ := hfair.prompt
  have hdestroys := hstep e' he'
  have hinput : e'.input = .destroy := by
    cases haction : e'.input with
    | destroy => rfl
    | _ => simp [haction, Action.isDestroy] at hdestroy
  rw [hinput] at hdestroys
  have hstage := congrArg Shutdown.stage hdestroys
  simp only [step, destroyStep] at hstage
  cases hs : s.stage with
  | ended => rfl
  | joiningServer => simp [hs, hreturned] at hstage
  | freeingShared | freeingTracker => simp [hs] at hstage
  | _ => simp [hs, Stage.hasStopped] at hstopped

/-- Along every run of a client up to its end: no thread of a download or of the peer server uses a member that has been
destroyed; after `quit`, the downloads are joined and the server stopped within as many rounds of turns as the rank says;
and after that every member is destroyed within as many as the full rank says. -/
theorem client_ends (ssl : OpenSsl) (cap longest : Nat) (inputs : List Action) :
    let s := Machine.run (step ssl) create inputs
    (∀ e ∈ Machine.events (step ssl) create inputs, ∀ m ∈ e.before.uses e.input, m ∉ e.before.stage.freed) ∧
    (s.stage ≠ .prompting → ∀ rounds, Machine.Along (step ssl) (Capped cap longest) s rounds.flatten →
      Machine.Rounds (step ssl) Fair s rounds → s.rank cap longest < rounds.length →
      (Machine.run (step ssl) s rounds.flatten).stage.hasStopped = true) ∧
    (s.stage.hasStopped = true → ∀ rounds, Machine.Along (step ssl) (Capped cap longest) s rounds.flatten →
      Machine.Rounds (step ssl) Fair s rounds → s.fullRank cap longest < rounds.length →
      (Machine.run (step ssl) s rounds.flatten).stage = .ended) := by
  intro s
  have horderly : s.Orderly := Machine.invariant create_orderly (fun s action h => h.step action) ⟨inputs, rfl⟩
  have halways : Machine.Along (step ssl) (fun _ _ => True) create inputs := Machine.along_of_forall fun _ _ _ => trivial
  refine ⟨fun e he => ?_, fun hprompting rounds halong hfair hmany => ?_, fun hstopped rounds halong hfair hmany => ?_⟩
  · have hbefore := (Machine.events_along create_orderly (fun s action h _ => h.step action) halways e he).1
    exact hbefore.uses_alive e.input
  · exact (runsDown cap longest ssl).ends (fun t action _ _ ht => step_hasStopped action ht)
      (fun t inputs h _ hround hsame => (stopped_of_unchanged h.1 h.2 hround hsame).1) ⟨horderly, hprompting⟩ halong hfair
      hmany
  · exact (runsDown_all cap longest ssl).ends
      (fun t action _ _ ht => by
        cases action with
        | destroy => simp only [step, destroyStep, ht]
        | main i view input => exact ((downloadStep_frame i view (.main input)).1).trans ht
        | worker i view k input => exact ((downloadStep_frame i view (.worker k input)).1).trans ht
        | serve | handler => exact ht
        | start | cancel | quit => simp only [step, ht, reduceCtorEq, if_false])
      (fun t inputs h _ hround hsame => ended_of_unchanged h.1 h.2 hround hsame) ⟨horderly, hstopped⟩ halong hfair hmany

end End

section Example

instance (round : List (Event Shutdown Action Unit)) : Decidable (Fair round) :=
  decidable_of_iff
    ((∃ e ∈ round, e.input.isDestroy = true) ∧ (∃ e ∈ round, e.input.isServe = true) ∧
      (∀ e ∈ round, ∀ k < e.before.server.handlers.length, ∃ e' ∈ round, e'.input.returns k = true) ∧
      ∀ e ∈ round, ∀ i < e.before.downloads.length, ∀ thread ∈ threads,
        ∃ e' ∈ round, e'.before.takesTurn i thread e'.input = true)
    ⟨fun h => ⟨h.1, h.2.1, h.2.2.1, h.2.2.2⟩, fun h => ⟨h.prompt, h.serve, h.handlers, h.downloads⟩⟩

/-- A download of an empty file has been started and a peer has connected when the user quits. -/
def quitWithOne : List Action :=
  .start (lit "g") (lit "f") (lit "out") ⟨0, [], []⟩ [] :: List.replicate 5 (.serve .ok) ++ [.quit]

/-- A turn of every thread; nobody connects any more, and the `.part` file cannot be opened. -/
def lastTurns : List Action :=
  [.destroy, .serve .again, .handler 0 true, .main 0 ⟨none, [], []⟩ .fail] ++
    (List.range MAX_THREADS).map (fun k => .worker 0 ⟨none, [], []⟩ k .ok)

def atEnd : Shutdown := Machine.run (step (Recording.replay {})) create quitWithOne

def afterStop : Shutdown :=
  Machine.run (step (Recording.replay {})) create (quitWithOne ++ (List.replicate 48 lastTurns).flatten)

theorem lastTurns_capped (s : Shutdown) (n : Nat) :
    Machine.Along (step (Recording.replay {})) (Capped 0 0) s (List.replicate n lastTurns).flatten := by
  refine Machine.along_of_forall fun action haction t => ?_
  obtain ⟨round, hround, hmem⟩ := List.mem_flatten.mp haction
  rw [List.eq_of_mem_replicate hround] at hmem
  simp only [lastTurns, List.cons_append, List.nil_append, List.mem_cons, List.mem_map, List.mem_range] at hmem
  rcases hmem with rfl | rfl | rfl | rfl | ⟨k, -, rfl⟩
  · trivial
  · trivial
  · trivial
  · exact fun d _ => ⟨Nat.le_refl _, fun _ => Nat.le_refl _⟩
  · exact fun d _ => ⟨Nat.le_refl _, fun _ => Nat.le_refl _⟩

/-- The download is joined and the server stopped, then the client is gone. -/
theorem client_ends_one : afterStop.stage.hasStopped = true ∧
    (Machine.run (step (Recording.replay {})) afterStop (List.replicate 48 lastTurns).flatten).stage = .ended := by
  have hfair : Machine.Rounds (step (Recording.replay {})) Fair atEnd (List.replicate 48 lastTurns) := by decide +kernel
  have hfair' : Machine.Rounds (step (Recording.replay {})) Fair afterStop (List.replicate 48 lastTurns) := by
    decide +kernel
  have hstopped : afterStop.stage.hasStopped = true := by
    obtain ⟨-, hstops, -⟩ := client_ends (Recording.replay {}) 0 0 quitWithOne
    rw [afterStop, Machine.run_append]
    exact hstops (by decide +kernel) _ (lastTurns_capped _ _) hfair (by decide +kernel)
  obtain ⟨-, -, hends⟩ :=
    client_ends (Recording.replay {}) 0 0 (quitWithOne ++ (List.replicate 48 lastTurns).flatten)
  exact ⟨hstopped, hends hstopped _ (lastTurns_capped _ _) hfair' (by decide +kernel)⟩

end Example

end Shutdown

end TorrentAtlas
