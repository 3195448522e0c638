import TorrentAtlas.FrameCap
import TorrentAtlas.Library.Monitor
import TorrentAtlas.TrackerLog

/-!
# Requests on many threads (`tracker/tracker_service.cpp`, `tracker/state/tracker_state.hpp`, `tracker/tracker_log.cpp`)

Each connection has its thread. `userOf` and `apply` take the mutex of the state, one after the
other, and `write` that of the log. Whatever the threads do in between, the tracker serves one
request after the other, and no line of the log is torn.
-/
namespace TorrentAtlas

open Encoding Crypto Monitor

namespace TrackerService

inductive Lock
  | state
  | log
  deriving DecidableEq, Repr

/-- What takes a lock; `write` has read the clock before. -/
inductive Op
  | userOf (session : UInt64)
  | apply (session : UInt64) (commandLine : Bytes) (context : ApplyContext)
  | write (time line : Bytes)

def Op.applies : Op → Bool
  | .apply _ _ _ => true
  | _ => false

def lineOf (time line : Bytes) : Bytes := lit "[" ++ time ++ lit "] " ++ line ++ lit "\n"

abbrev interface (ssl : OpenSsl) : Interface where
  Lock := Lock
  Data
    | .state => TrackerState
    | .log => Bytes
  Op := Op
  lock
    | .userOf _ | .apply _ _ _ => .state
    | .write _ _ => .log
  Result
    | .userOf _ => Bytes
    | .apply _ _ _ => CommandResult
    | .write _ _ => Unit
  effect
    | .userOf session, s => (s, s.userOf session)
    | .apply session commandLine context, s => s.apply ssl session commandLine context
    | .write time line, console => (console ++ lineOf time line, ())

instance decidableEqLock (ssl : OpenSsl) : DecidableEq (interface ssl).Lock := inferInstanceAs (DecidableEq Lock)

/-- A request with the address of its client, and the time at which its thread is going to log it. -/
structure Job extends Arrival where
  client : Bytes
  time : Bytes
  deriving DecidableEq, Repr

/-- The session and the command of a request. -/
def parseRequest (request : Bytes) : Option (UInt64 × Bytes) :=
  match split request (chr '\t') with
  | kind :: session :: first :: rest =>
    if kind ≠ lit "C" then none
    else
      match parseU64 session with
      | none => none
      | some session => some (session, join (first :: rest) (chr '\t'))
  | _ => none

def malformedReply : Bytes := lit "ERR malformed request\t0"

def replyText (result : CommandResult) : Bytes := result.response ++ lit "\t" ++ decimal result.session.toNat

section Threads

variable (ssl : OpenSsl) (job : Job)

/-- `handle` from its last line of log on. -/
def record (user command : Bytes) (result : CommandResult) : Program (interface ssl) Bytes :=
  .call (.write job.time (TrackerLog.info (logMessage user job.client command result.response))) fun _ =>
    .done (replyText result)

/-- `apply` takes the mutex only after it has found a word. -/
def execute (session : UInt64) (command user : Bytes) : Program (interface ssl) Bytes :=
  if words command = [] then record ssl job user command ⟨lit "ERR empty command", session⟩
  else .call (.apply session command job.context) (record ssl job user command)

def refuse : Program (interface ssl) Bytes :=
  .call (.write job.time (TrackerLog.error (job.client ++ lit " sent a malformed request"))) fun _ => .done malformedReply

/-- `handle` as its thread runs it. -/
def handleThread : Program (interface ssl) Bytes :=
  match parseRequest job.request with
  | none => refuse ssl job
  | some (session, command) => .call (.userOf session) (execute ssl job session command)

end Threads

theorem handle_eq (ssl : OpenSsl) (s : TrackerState) (context : ApplyContext) (request : Bytes) :
    handle ssl s context request = match parseRequest request with
      | none => (s, malformedReply)
      | some (session, command) =>
        ((s.apply ssl session command context).1, replyText (s.apply ssl session command context).2) := by
  unfold handle parseRequest
  generalize split request (chr '\t') = fields
  match fields with
  | [] | [_] | [_, _] => rfl
  | kind :: session :: first :: rest =>
    by_cases hkind : kind = lit "C"
    · cases hparse : parseU64 session <;> simp [hkind, hparse, malformedReply, replyText]
    · simp [hkind, malformedReply]

/-- What is logged if the user is looked up in one state and the command is run in another. -/
def logOf (ssl : OpenSsl) (looked s : TrackerState) (job : Job) : Bytes :=
  match parseRequest job.request with
  | none => TrackerLog.error (job.client ++ lit " sent a malformed request")
  | some (session, command) => TrackerLog.info
    (logMessage (looked.userOf session) job.client command (s.apply ssl session command job.context).2.response)

theorem logOf_self (ssl : OpenSsl) (s : TrackerState) (job : Job) :
    logOf ssl s s job = (handleLogged ssl s job.context job.request job.client).2 := by
  unfold logOf handleLogged parseRequest
  generalize split job.request (chr '\t') = fields
  match fields with
  | [] | [_] | [_, _] => rfl
  | kind :: session :: first :: rest =>
    by_cases hkind : kind = lit "C"
    · cases hparse : parseU64 session <;> simp [hkind, hparse]
    · simp [hkind]

/-- The request gets as far as the commands. -/
def Job.applies (job : Job) : Bool :=
  match parseRequest job.request with
  | none => false
  | some (_, command) => words command ≠ []

/-- The state after the jobs with these numbers, one after the other. -/
def served (ssl : OpenSsl) (s₀ : TrackerState) (jobs : List Job) (order : List Nat) : TrackerState :=
  Machine.run (serve ssl) s₀ (order.filterMap fun k => jobs[k]?.map Job.toArrival)

/-- The jobs served before the one with number `k`. -/
def before (order : List Nat) (k : Nat) : List Nat := order.takeWhile (· ≠ k)

section Order

variable {order : List Nat} {k j : Nat}

theorem before_of_not_mem (h : k ∉ order) : before order k = order :=
  List.takeWhile_eq_self_iff.mpr fun _ hi => decide_eq_true fun hik => h (hik ▸ hi)

theorem before_cons (i : Nat) (rest : List Nat) :
    before (i :: rest) k = if i = k then [] else i :: before rest k := by
  by_cases hi : i = k <;> simp [before, hi]

theorem before_append (h : k ∈ order) (more : List Nat) : before (order ++ more) k = before order k := by
  induction order with
  | nil => simp at h
  | cons i rest ih =>
    rw [List.cons_append, before_cons, before_cons]
    by_cases hi : i = k
    · rw [if_pos hi, if_pos hi]
    · have hrest : k ∈ rest := by simpa [Ne.symm hi] using h
      rw [if_neg hi, if_neg hi, ih hrest]

theorem before_concat_self (h : k ∉ order) : before (order ++ [k]) k = order := by
  induction order with
  | nil => simp [before]
  | cons i rest ih =>
    simp only [List.mem_cons, not_or] at h
    rw [List.cons_append, before_cons, if_neg (Ne.symm h.1), ih h.2]

theorem before_prefix_concat (hj : j ≠ k) : before order k <+: before (order ++ [j]) k := by
  by_cases h : k ∈ order
  · rw [before_append h]
  · have hmore : k ∉ order ++ [j] := by simp [h, Ne.symm hj]
    rw [before_of_not_mem h, before_of_not_mem hmore]
    exact List.prefix_append _ _

end Order

section Stages

variable (ssl : OpenSsl) (s₀ : TrackerState) (jobs : List Job)

/-- How far the thread of a job is, and what it holds of the states it has seen. -/
inductive Stage (order : List Nat) (k : Nat) (job : Job) (p : Program (interface ssl) Bytes) : Prop
  | malformed (hparse : parseRequest job.request = none) (hp : p = refuse ssl job)
  | arrived (session : UInt64) (command : Bytes) (hparse : parseRequest job.request = some (session, command))
    (hnew : k ∉ order) (hp : p = .call (.userOf session) (execute ssl job session command))
  | looked (session : UInt64) (command : Bytes) (earlier : List Nat)
    (hparse : parseRequest job.request = some (session, command)) (hwords : words command ≠ []) (hnew : k ∉ order)
    (hearlier : earlier <+: order)
    (hp : p = .call (.apply session command job.context)
      (record ssl job ((served ssl s₀ jobs earlier).userOf session) command))
  | applied (session : UInt64) (command : Bytes) (earlier : List Nat)
    (hparse : parseRequest job.request = some (session, command)) (hk : k ∈ order ∨ words command = [])
    (hearlier : earlier <+: before order k)
    (hp : p = record ssl job ((served ssl s₀ jobs earlier).userOf session) command
      ((served ssl s₀ jobs (before order k)).apply ssl session command job.context).2)
  | replied (hk : job.applies = true → k ∈ order)
    (hp : p = .done (handle ssl (served ssl s₀ jobs (before order k)) job.context job.request).2)

/-- A line of the log, with the user as of the lookup and the answer as of the command. -/
structure Logged (order : List Nat) (k : Nat) (job : Job) (line : Bytes) : Prop where
  settled : job.applies = true → k ∈ order
  looked : ∃ earlier, earlier <+: before order k ∧
    line = lineOf job.time (logOf ssl (served ssl s₀ jobs earlier) (served ssl s₀ jobs (before order k)) job)

/-- The log: whole lines, one from each thread that is done. -/
structure Wrote (console₀ : Bytes) (order : List Nat) (threads : List (Program (interface ssl) Bytes))
    (console : Bytes) (written : List (Nat × Bytes)) : Prop where
  text : console = console₀ ++ written.flatMap Prod.snd
  once : (written.map Prod.fst).Nodup
  logged : ∀ k line, (k, line) ∈ written → ∃ job, jobs[k]? = some job ∧ Logged ssl s₀ jobs order k job line
  ended : ∀ k, k ∈ written.map Prod.fst ↔ ∃ reply, threads[k]? = some (.done reply)

/-- The requests are served one after the other. -/
structure Serves (console₀ : Bytes) (order : List Nat) (t : Atomic (interface ssl) Bytes) : Prop where
  nodup : order.Nodup
  started : ∀ k ∈ order, k < t.threads.length
  staged : ∀ (k : Nat) p, t.threads[k]? = some p → ∃ job, jobs[k]? = some job ∧ Stage ssl s₀ jobs order k job p
  state : t.data Lock.state = served ssl s₀ jobs order
  console : ∃ written, Wrote ssl s₀ jobs console₀ order t.threads (t.data Lock.log) written

end Stages

variable {ssl : OpenSsl} {s₀ : TrackerState} {jobs : List Job} {order : List Nat} {k j : Nat} {job : Job}
  {p : Program (interface ssl) Bytes}

theorem served_concat (h : jobs[k]? = some job) : served ssl s₀ jobs (order ++ [k]) =
    (handle ssl (served ssl s₀ jobs order) job.context job.request).1 := by
  simp only [served, List.filterMap_append, List.filterMap_cons, h, Option.map_some, List.filterMap_nil,
    Machine.run_concat, serve]

theorem handle_parsed {s : TrackerState} {session : UInt64} {command : Bytes}
    (h : parseRequest job.request = some (session, command)) : handle ssl s job.context job.request =
      ((s.apply ssl session command job.context).1, replyText (s.apply ssl session command job.context).2) := by
  rw [handle_eq, h]

theorem apply_empty {s : TrackerState} {session : UInt64} {command : Bytes} {context : ApplyContext}
    (h : words command = []) : s.apply ssl session command context = (s, ⟨lit "ERR empty command", session⟩) := by
  rw [TrackerState.apply, h]

/-- The ways of a request not to get as far as the commands. -/
theorem Job.idle_cases (h : job.applies = false) : parseRequest job.request = none ∨
    ∃ session command, parseRequest job.request = some (session, command) ∧ words command = [] := by
  unfold applies at h
  cases hparse : parseRequest job.request with
  | none => exact Or.inl rfl
  | some pair => exact Or.inr ⟨pair.1, pair.2, rfl, by simpa [hparse] using h⟩

/-- Such a request is answered and logged alike in every state. -/
theorem handle_idle {s t : TrackerState} (h : job.applies = false) :
    (handle ssl s job.context job.request).2 = (handle ssl t job.context job.request).2 := by
  rcases Job.idle_cases h with hparse | ⟨session, command, hparse, hwords⟩
  · rw [handle_eq, handle_eq, hparse]
  · rw [handle_parsed hparse, handle_parsed hparse, apply_empty hwords, apply_empty hwords]

theorem logOf_idle {looked s t : TrackerState} (h : job.applies = false) :
    logOf ssl looked s job = logOf ssl looked t job := by
  rcases Job.idle_cases h with hparse | ⟨session, command, hparse, hwords⟩
  · simp only [logOf, hparse]
  · simp only [logOf, hparse, apply_empty hwords]

/-- What a settled job was answered stays what it was when others are served. -/
theorem answer_concat (hsettled : job.applies = true → k ∈ order) :
    (handle ssl (served ssl s₀ jobs (before (order ++ [j]) k)) job.context job.request).2 =
      (handle ssl (served ssl s₀ jobs (before order k)) job.context job.request).2 := by
  by_cases happlies : job.applies = true
  · rw [before_append (hsettled happlies)]
  · exact handle_idle (Bool.not_eq_true _ ▸ happlies)

theorem Logged.concat {line : Bytes} (h : Logged ssl s₀ jobs order k job line) (hj : j ≠ k) :
    Logged ssl s₀ jobs (order ++ [j]) k job line := by
  obtain ⟨earlier, hearlier, rfl⟩ := h.looked
  refine ⟨fun happlies => List.mem_append_left _ (h.settled happlies), earlier,
    hearlier.trans (before_prefix_concat hj), ?_⟩
  by_cases happlies : job.applies = true
  · rw [before_append (h.settled happlies)]
  · rw [logOf_idle (Bool.not_eq_true _ ▸ happlies)]

theorem Stage.concat (h : Stage ssl s₀ jobs order k job p) (hj : j ≠ k) : Stage ssl s₀ jobs (order ++ [j]) k job p := by
  have hstill : k ∉ order → k ∉ order ++ [j] := by
    intro hnew
    simp [hnew, Ne.symm hj]
  cases h with
  | malformed hparse hp => exact .malformed hparse hp
  | arrived session command hparse hnew hp => exact .arrived session command hparse (hstill hnew) hp
  | looked session command earlier hparse hwords hnew hearlier hp =>
    exact .looked session command earlier hparse hwords (hstill hnew) (hearlier.trans (List.prefix_append _ _)) hp
  | applied session command earlier hparse hk hearlier hp =>
    refine .applied session command earlier hparse (hk.imp_left (List.mem_append_left _))
      (hearlier.trans (before_prefix_concat hj)) ?_
    rcases hk with hk | hwords
    · rw [before_append hk]
      exact hp
    · rw [apply_empty hwords]
      rwa [apply_empty hwords] at hp
  | replied hsettled hp =>
    refine .replied (fun happlies => List.mem_append_left _ (hsettled happlies)) ?_
    rw [answer_concat hsettled]
    exact hp

/-- Threads that change no lock's data, and one that goes on without being done. -/
theorem Wrote.advance {console₀ console : Bytes} {threads : List (Program (interface ssl) Bytes)}
    {written : List (Nat × Bytes)} (h : Wrote ssl s₀ jobs console₀ order threads console written)
    {q : Program (interface ssl) Bytes} (hk : threads[k]? = some p) (hp : ∀ reply, p ≠ .done reply)
    (hq : ∀ reply, q ≠ .done reply) : Wrote ssl s₀ jobs console₀ order (threads.set k q) console written := by
  have hlt := (List.getElem?_eq_some_iff.mp hk).1
  refine ⟨h.text, h.once, h.logged, fun i => (h.ended i).trans ?_⟩
  by_cases hi : i = k
  · subst hi
    simp only [hk, List.getElem?_set_self hlt, Option.some.injEq]
    exact ⟨fun ⟨reply, hreply⟩ => absurd hreply (hp reply), fun ⟨reply, hreply⟩ => absurd hreply (hq reply)⟩
  · rw [List.getElem?_set_ne (Ne.symm hi)]

/-- A thread writes its line and is done. -/
theorem Wrote.write {console₀ console : Bytes} {threads : List (Program (interface ssl) Bytes)}
    {written : List (Nat × Bytes)} (h : Wrote ssl s₀ jobs console₀ order threads console written)
    {line reply : Bytes} (hk : threads[k]? = some p) (hp : ∀ reply, p ≠ .done reply) (hjob : jobs[k]? = some job)
    (hline : Logged ssl s₀ jobs order k job line) :
    Wrote ssl s₀ jobs console₀ order (threads.set k (.done reply)) (console ++ line) (written ++ [(k, line)]) := by
  have hlt := (List.getElem?_eq_some_iff.mp hk).1
  have hfirst : k ∉ written.map Prod.fst := by
    intro hmem
    obtain ⟨reply, hreply⟩ := (h.ended k).mp hmem
    rw [hk] at hreply
    exact hp reply (Option.some.inj hreply)
  refine ⟨by simp [h.text], ?_, fun i text hmem => ?_, fun i => ?_⟩
  · rw [List.map_append, List.nodup_append]
    refine ⟨h.once, by simp, fun i hi i' hi' hii' => hfirst ?_⟩
    have hik : i' = k := by simpa using hi'
    rwa [← hik, ← hii']
  · rcases List.mem_append.mp hmem with hold | hnew
    · exact h.logged i text hold
    · obtain ⟨rfl, rfl⟩ : i = k ∧ text = line := by simpa using hnew
      exact ⟨job, hjob, hline⟩
  · rw [List.map_append, List.mem_append, h.ended i]
    by_cases hi : i = k
    · subst hi
      simp [List.getElem?_set_self hlt]
    · simp [List.getElem?_set_ne (Ne.symm hi), hi]

variable {console₀ : Bytes} {t : Atomic (interface ssl) Bytes}

/-- A thread goes on with its next operation. -/
theorem Serves.advance (h : Serves ssl s₀ jobs console₀ order t) {q : Program (interface ssl) Bytes}
    (hk : t.threads[k]? = some p) (hp : ∀ reply, p ≠ .done reply) (hjob : jobs[k]? = some job)
    (hstage : Stage ssl s₀ jobs order k job q) (hq : ∀ reply, q ≠ .done reply) :
    Serves ssl s₀ jobs console₀ order ⟨t.data, t.threads.set k q⟩ := by
  have hlt := (List.getElem?_eq_some_iff.mp hk).1
  obtain ⟨written, hwrote⟩ := h.console
  refine ⟨h.nodup, fun i hi => by simpa using h.started i hi, fun i r hi => ?_, h.state,
    written, hwrote.advance hk hp hq⟩
  rcases getElem?_set_cases hlt hi with ⟨rfl, rfl⟩ | ⟨-, hold⟩
  · exact ⟨job, hjob, hstage⟩
  · exact h.staged i r hold

/-- A thread writes its line and is done. -/
theorem Serves.write (h : Serves ssl s₀ jobs console₀ order t) {line reply : Bytes} (hk : t.threads[k]? = some p)
    (hp : ∀ reply, p ≠ .done reply) (hjob : jobs[k]? = some job) (hline : Logged ssl s₀ jobs order k job line)
    (hstage : Stage ssl s₀ jobs order k job (.done reply)) :
    Serves ssl s₀ jobs console₀ order
      ⟨Function.update t.data Lock.log (t.data Lock.log ++ line), t.threads.set k (.done reply)⟩ := by
  have hlt := (List.getElem?_eq_some_iff.mp hk).1
  have hother : (Lock.state : (interface ssl).Lock) ≠ Lock.log := Lock.noConfusion
  obtain ⟨written, hwrote⟩ := h.console
  refine ⟨h.nodup, fun i hi => by simpa using h.started i hi, fun i r hi => ?_, ?_,
    written ++ [(k, line)], ?_⟩
  · rcases getElem?_set_cases hlt hi with ⟨rfl, rfl⟩ | ⟨-, hold⟩
    · exact ⟨job, hjob, hstage⟩
    · exact h.staged i r hold
  · dsimp only
    rw [Function.update_of_ne hother]
    exact h.state
  · dsimp only
    rw [Function.update_self]
    exact hwrote.write hk hp hjob hline

/-- A command is run. -/
theorem Serves.apply (h : Serves ssl s₀ jobs console₀ order t) {q : Program (interface ssl) Bytes}
    (hk : t.threads[k]? = some p) (hp : ∀ reply, p ≠ .done reply) (hjob : jobs[k]? = some job) (hnew : k ∉ order)
    (hstage : Stage ssl s₀ jobs (order ++ [k]) k job q) (hq : ∀ reply, q ≠ .done reply) :
    Serves ssl s₀ jobs console₀ (order ++ [k])
      ⟨Function.update t.data Lock.state (handle ssl (t.data Lock.state) job.context job.request).1,
        t.threads.set k q⟩ := by
  have hlt := (List.getElem?_eq_some_iff.mp hk).1
  have hother : (Lock.log : (interface ssl).Lock) ≠ Lock.state := Lock.noConfusion
  obtain ⟨written, hwrote⟩ := h.console
  have hended := hwrote.advance hk hp hq
  refine ⟨?_, fun i hi => ?_, fun i r hi => ?_, ?_, written, ?_⟩
  · exact List.nodup_append.mpr ⟨h.nodup, by simp, fun i hi i' hi' hii' => hnew (by simp_all)⟩
  · rw [List.length_set]
    rcases List.mem_append.mp hi with hold | hself
    · exact h.started i hold
    · rwa [List.mem_singleton.mp hself]
  · rcases getElem?_set_cases hlt hi with ⟨rfl, rfl⟩ | ⟨hne, hold⟩
    · exact ⟨job, hjob, hstage⟩
    · obtain ⟨other, hother, hold⟩ := h.staged i r hold
      exact ⟨other, hother, hold.concat (Ne.symm hne)⟩
  · dsimp only
    rw [Function.update_self, served_concat hjob, h.state]
  · dsimp only
    rw [Function.update_of_ne hother]
    refine ⟨hended.text, hended.once, fun i line hmem => ?_, hended.ended⟩
    obtain ⟨other, hother, hlogged⟩ := hended.logged i line hmem
    have hne : k ≠ i := by
      rintro rfl
      obtain ⟨reply, hreply⟩ := (hwrote.ended k).mp (List.mem_map_of_mem hmem)
      rw [hk] at hreply
      exact hp reply (Option.some.inj hreply)
    exact ⟨other, hother, hlogged.concat hne⟩

theorem Stage.create (hnew : k ∉ order) : Stage ssl s₀ jobs order k job (handleThread ssl job) := by
  unfold handleThread
  split
  · next hparse => exact .malformed hparse rfl
  · next session command hparse => exact .arrived session command hparse hnew rfl

theorem handleThread_ne_done (reply : Bytes) : handleThread ssl job ≠ .done reply := by
  unfold handleThread
  split <;> simp [refuse]

/-- A connection gets its thread. -/
theorem Serves.spawn (h : Serves ssl s₀ jobs console₀ order t) (hjob : jobs[t.threads.length]? = some job) :
    Serves ssl s₀ jobs console₀ order ⟨t.data, t.threads ++ [handleThread ssl job]⟩ := by
  have hlookup : ∀ (i : Nat) r, (t.threads ++ [handleThread ssl job])[i]? = some r ↔
      t.threads[i]? = some r ∨ i = t.threads.length ∧ r = handleThread ssl job := by
    intro i r
    rcases Nat.lt_trichotomy i t.threads.length with hlt | rfl | hgt
    · simp [List.getElem?_append_left hlt, Nat.ne_of_lt hlt]
    · simp [eq_comm]
    · have hout : t.threads.length + 1 ≤ i := hgt
      simp [List.getElem?_eq_none_iff.mpr, hgt.le, Nat.ne_of_gt hgt, hout]
  obtain ⟨written, hwrote⟩ := h.console
  refine ⟨h.nodup, fun i hi => ?_, fun i r hi => ?_, h.state, written, hwrote.text, hwrote.once, hwrote.logged,
    fun i => (hwrote.ended i).trans ?_⟩
  · have hstarted := h.started i hi
    simp only [List.length_append, List.length_singleton]
    omega
  · rcases (hlookup i r).mp hi with hold | ⟨rfl, rfl⟩
    · exact h.staged i r hold
    · exact ⟨job, hjob, .create fun hmem => Nat.lt_irrefl _ (h.started _ hmem)⟩
  · simp only [hlookup, (handleThread_ne_done _).symm, and_false, or_false]

/-- The thread that a step of the atomic machine makes run its command. -/
def committed (t : Atomic (interface ssl) Bytes) : Monitor.Action Job → Option Nat
  | .spawn _ => none
  | .run k =>
    match t.threads[k]? with
    | some (.call o _) => if Op.applies o then some k else none
    | _ => none

/-- A thread does its next operation at once. -/
theorem Serves.run (h : Serves ssl s₀ jobs console₀ order t) {o : Op}
    {next : (interface ssl).Result o → Program (interface ssl) Bytes} (hk : t.threads[k]? = some (.call o next)) :
    Serves ssl s₀ jobs console₀ (order ++ if o.applies then [k] else [])
      ⟨Function.update t.data ((interface ssl).lock o) ((interface ssl).effect o (t.data ((interface ssl).lock o))).1,
        t.threads.set k (next ((interface ssl).effect o (t.data ((interface ssl).lock o))).2)⟩ := by
  obtain ⟨job, hjob, hstage⟩ := h.staged k _ hk
  have hcall : ∀ reply, (.call o next : Program (interface ssl) Bytes) ≠ .done reply := by simp
  cases hstage with
  | malformed hparse hp =>
    cases hp
    have hidle : job.applies = false := by simp only [Job.applies, hparse]
    have hsettled : job.applies = true → k ∈ order := by simp [hidle]
    have hline : Logged ssl s₀ jobs order k job
        (lineOf job.time (TrackerLog.error (job.client ++ lit " sent a malformed request"))) :=
      ⟨hsettled, before order k, List.prefix_refl _, by simp only [logOf, hparse]⟩
    have hreply : malformedReply = (handle ssl (served ssl s₀ jobs (before order k)) job.context job.request).2 := by
      rw [handle_eq, hparse]
    simp only [Op.applies, Bool.false_eq_true, if_false, List.append_nil]
    exact h.write hk hcall hjob hline (.replied hsettled (by rw [hreply]))
  | arrived session command hparse hnew hp =>
    cases hp
    simp only [Op.applies, Bool.false_eq_true, if_false, List.append_nil, Function.update_eq_self]
    refine h.advance hk hcall hjob ?_ fun reply => ?_
    · rw [h.state]
      by_cases hwords : words command = []
      · refine .applied session command order hparse (.inr hwords) ?_ ?_
        · rw [before_of_not_mem hnew]
        · rw [execute, if_pos hwords, apply_empty hwords]
      · exact .looked session command order hparse hwords hnew (List.prefix_refl _) (by rw [execute, if_neg hwords])
    · unfold execute
      split <;> simp [record]
  | looked session command earlier hparse hwords hnew hearlier hp =>
    cases hp
    have hdata : (handle ssl (t.data Lock.state) job.context job.request).1 =
        ((t.data Lock.state).apply ssl session command job.context).1 := by rw [handle_parsed hparse]
    simp only [Op.applies, if_true]
    rw [← hdata]
    refine h.apply hk hcall hjob hnew (.applied session command earlier hparse (.inl (by simp)) ?_ ?_) fun reply => ?_
    · rwa [before_concat_self hnew]
    · rw [before_concat_self hnew, h.state]
    · simp [record]
  | applied session command earlier hparse hk' hearlier hp =>
    cases hp
    have hsettled : job.applies = true → k ∈ order := by
      intro happlies
      have hwords : words command ≠ [] := by simpa [Job.applies, hparse] using happlies
      exact hk'.resolve_right hwords
    simp only [Op.applies, Bool.false_eq_true, if_false, List.append_nil]
    refine h.write hk hcall hjob ⟨hsettled, earlier, hearlier, ?_⟩ (.replied hsettled ?_)
    · simp only [logOf, hparse]
    · rw [handle_parsed hparse]
  | replied hsettled hp => simp at hp

theorem Serves.step (h : Serves ssl s₀ jobs console₀ order t) (x : Monitor.Action Job)
    (hjob : ∀ job, x = .spawn job → jobs[t.threads.length]? = some job) :
    Serves ssl s₀ jobs console₀ (order ++ (committed t x).toList) (Atomic.step (handleThread ssl) t x).1 := by
  cases x with
  | spawn job => simpa [committed, Atomic.step] using h.spawn (hjob job rfl)
  | run k =>
    cases hk : t.threads[k]? with
    | none => simpa [committed, Atomic.step, hk] using h
    | some p =>
      cases p with
      | done reply => simpa [committed, Atomic.step, hk] using h
      | call o next =>
        have horder : (if Op.applies o then some k else none).toList = if Op.applies o then [k] else [] := by
          split <;> rfl
        simp only [committed, Atomic.step, hk, horder]
        exact h.run hk

section Runs

variable (m : Implementation (interface ssl)) (s₀ : TrackerState) (console₀ : Bytes)

/-- The data behind the locks before the first connection. -/
def initial : ∀ l, (interface ssl).Data l
  | .state => s₀
  | .log => console₀

/-- The threads of `handle` after some connections and turns. -/
def threads (xs : List (Monitor.Action Job)) : Locked (interface ssl) Bytes :=
  Machine.run (Locked.step (handleThread ssl) m) (Locked.create (initial s₀ console₀)) xs

/-- The jobs whose commands have been run, in the order in which they took the mutex for that. -/
def commits (xs : List (Monitor.Action Job)) : List Nat :=
  (Machine.events (Atomic.step (handleThread ssl)) ⟨initial s₀ console₀, []⟩
    (Locked.linear (handleThread ssl) m (Locked.create (initial s₀ console₀)) xs)).filterMap
      fun e => committed e.before e.input

end Runs

/-- What the threads of `handle` have done is what some order of their requests does, one after the other. -/
structure Linearized (ssl : OpenSsl) (s₀ : TrackerState) (console₀ : Bytes) (jobs : List Job) (order : List Nat)
    (s : Locked (interface ssl) Bytes) : Prop where
  length : s.threads.length = jobs.length
  nodup : order.Nodup
  started : ∀ k ∈ order, k < jobs.length
  state : s.holder Lock.state = none → s.data Lock.state = served ssl s₀ jobs order
  replied : ∀ (k : Nat) reply, s.threads[k]? = some (.outside (.done reply)) → ∃ job, jobs[k]? = some job ∧
    (job.applies = true → k ∈ order) ∧
    reply = (handle ssl (served ssl s₀ jobs (before order k)) job.context job.request).2
  console : s.holder Lock.log = none → ∃ written : List (Nat × Bytes),
    s.data Lock.log = console₀ ++ written.flatMap Prod.snd ∧ (written.map Prod.fst).Nodup ∧
    (∀ k line, (k, line) ∈ written → ∃ job, jobs[k]? = some job ∧ Logged ssl s₀ jobs order k job line) ∧
    ∀ (k : Nat) reply, s.threads[k]? = some (.outside (.done reply)) → k ∈ written.map Prod.fst
  progress : ∀ k < jobs.length, (∀ reply, s.threads[k]? ≠ some (.outside (.done reply))) → ∃ j, s.enabled j = true

theorem linearized {s : Locked (interface ssl) Bytes} (h : Serves ssl s₀ jobs console₀ order t)
    (hsim : Simulates s t) (hlength : t.threads.length = jobs.length) : Linearized ssl s₀ console₀ jobs order s := by
  have hsize : s.threads.length = jobs.length := hsim.length.symm.trans hlength
  refine ⟨hsize, h.nodup, fun k hk => hlength ▸ h.started k hk, fun hfree => ?_, fun k reply hk => ?_,
    fun hfree => ?_, fun k hlt hnot => ?_⟩
  · rw [← hsim.free _ hfree, h.state]
  · obtain ⟨job, hjob, hstage⟩ := h.staged k _ (hsim.outside k _ hk)
    cases hstage with
    | malformed hparse hp => simp [refuse] at hp
    | arrived session command hparse hnew hp => simp at hp
    | looked session command earlier hparse hwords hnew hearlier hp => simp at hp
    | applied session command earlier hparse hk' hearlier hp => simp [record] at hp
    | replied hsettled hp => exact ⟨job, hjob, hsettled, Program.done.inj hp⟩
  · obtain ⟨written, hwrote⟩ := h.console
    rw [← hsim.free _ hfree]
    exact ⟨written, hwrote.text, hwrote.once, hwrote.logged,
      fun k reply hk => (hwrote.ended k).mpr ⟨reply, hsim.outside k _ hk⟩⟩
  · have hthread : s.threads[k]? = some s.threads[k] := List.getElem?_eq_getElem (hsize ▸ hlt)
    exact hsim.progress hthread fun reply hreply => hnot reply (hreply ▸ hthread)

/-- The commands of the atomic machine along a run, for whatever jobs are going to come. -/
theorem serves_run (xs : List (Monitor.Action Job)) (hjobs : xs.filterMap Action.job? <+: jobs) :
    let a : Atomic (interface ssl) Bytes := ⟨initial s₀ console₀, []⟩
    (Machine.run (Atomic.step (handleThread ssl)) a xs).threads.length = (xs.filterMap Action.job?).length ∧
      Serves ssl s₀ jobs console₀
        ((Machine.events (Atomic.step (handleThread ssl)) a xs).filterMap fun e => committed e.before e.input)
        (Machine.run (Atomic.step (handleThread ssl)) a xs) := by
  intro a
  induction xs using List.reverseRecOn with
  | nil =>
    have hwrote : Wrote ssl s₀ jobs console₀ [] [] console₀ [] := ⟨by simp, by simp, by simp, by simp⟩
    exact ⟨rfl, by simp [Machine.events], by simp [Machine.events], by simp [a], rfl, [], hwrote⟩
  | append_singleton xs x ih =>
    rw [List.filterMap_append] at hjobs
    obtain ⟨hlength, hserves⟩ := ih ((List.prefix_append _ _).trans hjobs)
    have hnext := hserves.step x fun job hx => by
      subst hx
      obtain ⟨later, rfl⟩ := hjobs
      simp [hlength, Action.job?]
    rw [Machine.run_concat, Machine.events_concat, List.filterMap_append, List.filterMap_append, List.length_append,
      ← hlength]
    refine ⟨?_, ?_⟩
    · cases x with
      | spawn job => simp [Atomic.step, Action.job?]
      | run k =>
        simp only [Atomic.step]
        split <;> simp [Action.job?]
    · have hsingle : [Machine.event (Atomic.step (handleThread ssl))
          (Machine.run (Atomic.step (handleThread ssl)) a xs) x].filterMap (fun e => committed e.before e.input) =
          (committed (Machine.run (Atomic.step (handleThread ssl)) a xs) x).toList := by
        cases hcommitted : committed (Machine.run (Atomic.step (handleThread ssl)) a xs) x <;>
          simp [Machine.event, hcommitted]
      rw [hsingle]
      exact hnext

/-- However the connection threads interleave, and however `userOf`, `apply` and `write` touch the data under their
mutexes, there is one order of the commands, which only grows, that explains the state, every reply and every line of
the log; and as long as a thread is not done, one of them does not have to wait. -/
theorem handle_linearizable (m : Implementation (interface ssl)) (s₀ : TrackerState) (console₀ : Bytes)
    (xs : List (Monitor.Action Job)) :
    (∀ more, commits m s₀ console₀ xs <+: commits m s₀ console₀ (xs ++ more)) ∧
      Linearized ssl s₀ console₀ (xs.filterMap Action.job?) (commits m s₀ console₀ xs) (threads m s₀ console₀ xs) := by
  refine ⟨fun more => ?_, ?_⟩
  · have hlinear : Locked.linear (handleThread ssl) m (Locked.create (initial s₀ console₀)) (xs ++ more) =
        Locked.linear (handleThread ssl) m (Locked.create (initial s₀ console₀)) xs ++
          Locked.linear (handleThread ssl) m (threads m s₀ console₀ xs) more := Locked.linear_append
    rw [commits, commits, hlinear, Machine.events_append, List.filterMap_append]
    exact List.prefix_append _ _
  · have hjobs : (Locked.linear (handleThread ssl) m (Locked.create (initial s₀ console₀)) xs).filterMap
        Action.job? = xs.filterMap Action.job? := Locked.linear_jobs
    have hsim : Simulates (threads m s₀ console₀ xs) (Machine.run (Atomic.step (handleThread ssl))
        ⟨initial s₀ console₀, []⟩ (Locked.linear (handleThread ssl) m (Locked.create (initial s₀ console₀)) xs)) :=
      (simulates_create _).run xs
    obtain ⟨hlength, hserves⟩ := @serves_run ssl s₀ (xs.filterMap Action.job?) console₀
      (Locked.linear (handleThread ssl) m (Locked.create (initial s₀ console₀)) xs) (by rw [hjobs])
    exact linearized hserves hsim (by rw [hlength, hjobs])

/-- Commands that read the state and then write it, and a log that is written in three pieces. -/
def exampleImplementation (ssl : OpenSsl) : Implementation (interface ssl) where
  body
    | .userOf session => .access id fun s => .done (s.userOf session)
    | .apply session command context =>
      .access id fun s => .access (fun _ => (s.apply ssl session command context).1) fun _ =>
        .done (s.apply ssl session command context).2
    | .write time line =>
      .access (· ++ lit "[" ++ time) fun _ => .access (· ++ lit "] " ++ line) fun _ => .access (· ++ lit "\n") fun _ =>
        .done ()
  exec_body o d := by
    cases o with
    | userOf session => rfl
    | apply session command context => rfl
    | write time line => simp [Body.exec, lineOf]

def exampleUsers : TrackerState where
  users := .empty
  sessions := (OrderedMap.empty.insert 1 (lit "alice")).insert 2 (lit "bob")
  groups := .empty

def exampleJob (session : Bytes) : Job where
  request := lit "C\t" ++ session ++ lit "\tcreate_group readers"
  context := ⟨[], 0, 0⟩
  client := lit "10.0.0.9:5000"
  time := lit "12:00:00"

/-- The second of two threads takes the mutex first, while the first one has looked up its user. -/
def exampleMoves : List (Monitor.Action Job) :=
  [.spawn (exampleJob (lit "1")), .spawn (exampleJob (lit "2")), .run 0, .run 0, .run 0, .run 1, .run 1, .run 1, .run 1,
    .run 0, .run 1, .run 1, .run 1, .run 1, .run 1, .run 0, .run 1, .run 0, .run 1, .run 0, .run 0, .run 1, .run 0, .run 0,
    .run 0, .run 0, .run 0, .run 0, .run 0]

/-- Two users create a group of one name, and the one who came later gets it. -/
theorem handle_linearizable_create_group :
    Linearized (Recording.replay {}) exampleUsers [] [exampleJob (lit "1"), exampleJob (lit "2")] [1, 0]
      (threads (exampleImplementation (Recording.replay {})) exampleUsers [] exampleMoves) ∧
    ((served (Recording.replay {}) exampleUsers [exampleJob (lit "1"), exampleJob (lit "2")] [1, 0]).groups.find
      (lit "readers")).map Group.owner = some (lit "bob") := by
  have horder : commits (exampleImplementation (Recording.replay {})) exampleUsers [] exampleMoves = [1, 0] := by
    decide +kernel
  refine ⟨?_, ?_⟩
  · have hrun := (handle_linearizable (exampleImplementation (Recording.replay {})) exampleUsers [] exampleMoves).2
    rwa [horder] at hrun
  · decide +kernel

end TrackerService

end TorrentAtlas
