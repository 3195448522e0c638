import TorrentAtlas.Accounts
import TorrentAtlas.TrackerClient

/-!
# Sessions under loss

Any number of clients call one tracker, each with one call at a time. A request is
applied at most once, perhaps after its client has given up on it or never; a reply
arrives or is lost; a restart empties the tracker. A session number belongs to the
client whose login the tracker drew it for, and that is where it stays.
-/
namespace TorrentAtlas

open TrackerState

/-- One run of `TrackerClient::request`. -/
structure TrackerCall where
  client : Nat
  /-- What `session_` was. -/
  session : UInt64
  command : Bytes
  /-- The client is still in `callTracker`. -/
  waiting : Bool
  /-- The tracker's reply, once it has applied the request. -/
  reply : Option Bytes
  deriving DecidableEq, Repr

/-- The tracker, every client's `session_` and all calls made so far. -/
structure Deployment where
  state : TrackerState
  session : Nat → UInt64
  calls : List TrackerCall

namespace Deployment

inductive Action
  | request (client : Nat) (command : Bytes)
  /-- The tracker handles the request of call `i`. -/
  | apply (i : Nat) (context : ApplyContext)
  /-- The reply of call `i` reaches its client. -/
  | receive (i : Nat)
  | giveUp (i : Nat)
  | restart
  deriving DecidableEq, Repr

def init : Deployment := ⟨TrackerState.empty, fun _ => 0, []⟩

variable (ssl : OpenSsl)

/-- `request` holds the client's lock until its call is over. -/
def busy (w : Deployment) (client : Nat) : Bool := w.calls.any (fun call => call.client = client && call.waiting)

/-- The end of call `i` for its client; `reply` is what `callTracker` gave it. -/
def finish (w : Deployment) (i : Nat) (call : TrackerCall) (reply : Option Bytes) : Deployment :=
  { w with
    session := Function.update w.session call.client (TrackerClient.request (w.session call.client) reply).session
    calls := w.calls.set i { call with waiting := false } }

/-- A step, and whose command the tracker executed in it. -/
def step (w : Deployment) : Action → Deployment × Option (Nat × TrackerEvent)
  | .request client command =>
    if w.busy client then (w, none)
    else ({ w with calls := w.calls ++ [⟨client, w.session client, command, true, none⟩] }, none)
  | .apply i context =>
    match w.calls[i]? with
    | none => (w, none)
    | some call =>
      match call.reply with
      | some _ => (w, none)
      | none =>
        let result := TrackerService.handle ssl w.state context (TrackerClient.message call.session call.command)
        ({ w with
            state := result.1
            calls := w.calls.set i { call with reply := some result.2 } },
          some (call.client, Machine.event (TrackerState.step ssl) w.state ⟨call.session, call.command, context⟩))
  | .receive i =>
    match w.calls[i]? with
    | none => (w, none)
    | some call =>
      match call.waiting, call.reply with
      | true, some reply => (w.finish i call (some reply), none)
      | _, _ => (w, none)
  | .giveUp i =>
    match w.calls[i]? with
    | none => (w, none)
    | some call => if call.waiting then (w.finish i call none, none) else (w, none)
  | .restart => ({ w with state := TrackerState.empty }, none)

/-- A step with whose command the tracker executed in it, if any. -/
abbrev Moment := Event Deployment Action (Option (Nat × TrackerEvent))

/-- The new session numbers of all commands the tracker executed. -/
def draws (past : List Moment) : List UInt64 :=
  past.filterMap (fun e => e.output.map (fun executed => executed.2.input.context.newSession))

/-- The tracker drew `k` for a command of client `a`. -/
def Drew (past : List Moment) (a : Nat) (k : UInt64) : Prop :=
  ∃ e ∈ past, ∃ x, e.output = some (a, x) ∧ x.input.context.newSession = k

/-- A login of client `a` bound `k` to `user`, and it has been bound ever since. -/
def BoundBy (past : List Moment) (a : Nat) (k : UInt64) (user : Bytes) : Prop :=
  ∃ earlier e later x, past = earlier ++ e :: later ∧ e.output = some (a, x) ∧ Binds k user x ∧
    ∀ f ∈ later, f.after.state.sessions.find k = some user

/-- A reply that carries no session but one drawn for client `a`. -/
def Owned (past : List Moment) (a : Nat) (reply : Bytes) : Prop :=
  ∃ response session, reply = response ++ lit "\t" ++ decimal session.toNat ∧ (session ≠ 0 → Drew past a session)

/-- Every session number is with the client it was drawn for. -/
structure Settled (past : List Moment) (w : Deployment) : Prop where
  consistent : w.state.Consistent
  clients : ∀ a, w.session a ≠ 0 → Drew past a (w.session a)
  calls : ∀ call ∈ w.calls, call.session ≠ 0 → Drew past call.client call.session
  replies : ∀ call ∈ w.calls, ∀ reply, call.reply = some reply → Owned past call.client reply
  bindings : ∀ k user, w.state.sessions.find k = some user → ∃ a, Drew past a k ∧ BoundBy past a k user

variable {ssl} {past : List Moment} {w w' : Deployment} {a b : Nat} {k : UInt64} {user : Bytes}

theorem Drew.mono (h : Drew past a k) (e : Moment) : Drew (past ++ [e]) a k := by
  obtain ⟨f, hf, x, hx, hk⟩ := h
  exact ⟨f, List.mem_append_left _ hf, x, hx, hk⟩

theorem Owned.mono {reply : Bytes} (h : Owned past a reply) (e : Moment) : Owned (past ++ [e]) a reply := by
  obtain ⟨response, session, rfl, hdrew⟩ := h
  exact ⟨response, session, rfl, fun hne => (hdrew hne).mono e⟩

theorem BoundBy.mono (h : BoundBy past a k user) {e : Moment} (hkeep : e.after.state.sessions.find k = some user) :
    BoundBy (past ++ [e]) a k user := by
  obtain ⟨earlier, f, later, x, rfl, hf, hbinds, hlater⟩ := h
  refine ⟨earlier, f, later ++ [e], x, by simp, hf, hbinds, fun f' hf' => ?_⟩
  rcases List.mem_append.mp hf' with hf' | hf'
  · exact hlater f' hf'
  · obtain rfl := List.mem_singleton.mp hf'
    exact hkeep

/-- If no number is drawn twice, a number belongs to one client. -/
theorem Drew.unique (hfresh : (draws past).Nodup) (ha : Drew past a k) (hb : Drew past b k) : a = b := by
  obtain ⟨e, he, x, hx, hxk⟩ := ha
  obtain ⟨f, hf, y, hy, hyk⟩ := hb
  by_cases hef : e = f
  · subst hef
    exact congrArg Prod.fst (Option.some.inj (hx.symm.trans hy))
  · have hpair := List.pairwise_filterMap.mp hfresh
    have hsymm : Std.Symm (fun e f : Event Deployment Action (Option (Nat × TrackerEvent)) =>
        ∀ m, e.output.map (fun executed => executed.2.input.context.newSession) = some m →
        ∀ n, f.output.map (fun executed => executed.2.input.context.newSession) = some n → m ≠ n) :=
      ⟨fun e f h m hm n hn => Ne.symm (h n hn m hm)⟩
    exact absurd rfl (hpair.forall he hf hef k (by rw [hx]; exact congrArg some hxk) k
      (by rw [hy]; exact congrArg some hyk))

/-- The session of a reply is none, the request's own or, for a login without one, the one drawn for it. -/
theorem replySession {s s' : TrackerState} {c : Call} {result : CommandResult} (e : Effect ssl s c s' result) :
    result.session = 0 ∨ result.session = c.session ∨ c.session = 0 ∧ result.session = c.context.newSession := by
  cases e with
  | login name secret stored session hwords hout huser hverify hsession =>
    by_cases hz : c.session = 0
    · exact Or.inr (Or.inr ⟨hz, by rw [hsession, if_pos hz]⟩)
    · exact Or.inr (Or.inl (by rw [hsession, if_neg hz]))
  | logout => exact Or.inl rfl
  | _ => exact Or.inr (Or.inl rfl)

section Steps

variable {e : Moment}

theorem Settled.bindings_mono (h : Settled past w) (hstate : e.after.state = w.state) :
    ∀ k user, w.state.sessions.find k = some user → ∃ a, Drew (past ++ [e]) a k ∧ BoundBy (past ++ [e]) a k user := by
  intro k user hk
  obtain ⟨a, hdrew, hbound⟩ := h.bindings k user hk
  exact ⟨a, hdrew.mono e, hbound.mono (by rw [hstate]; exact hk)⟩

/-- A step that changes nothing. -/
theorem Settled.idle (h : Settled past w) (hafter : e.after = w) : Settled (past ++ [e]) w where
  consistent := h.consistent
  clients a ha := (h.clients a ha).mono e
  calls call hcall hne := (h.calls call hcall hne).mono e
  replies call hcall reply hreply := (h.replies call hcall reply hreply).mono e
  bindings := h.bindings_mono (by rw [hafter])

theorem Settled.request (h : Settled past w) {client : Nat} {command : Bytes}
    (hafter : e.after = { w with calls := w.calls ++ [⟨client, w.session client, command, true, none⟩] }) :
    Settled (past ++ [e]) e.after := by
  have hcalls : ∀ call ∈ e.after.calls, call ∈ w.calls ∨ call = ⟨client, w.session client, command, true, none⟩ := by
    intro call hcall
    rw [hafter] at hcall
    simpa using hcall
  have hstate : e.after.state = w.state := by rw [hafter]
  refine ⟨hstate ▸ h.consistent, ?_, ?_, ?_, ?_⟩
  · rw [hafter]
    exact fun a ha => (h.clients a ha).mono e
  · intro call hcall hne
    rcases hcalls call hcall with hold | rfl
    · exact (h.calls call hold hne).mono e
    · exact (h.clients client hne).mono e
  · intro call hcall reply hreply
    rcases hcalls call hcall with hold | rfl
    · exact (h.replies call hold reply hreply).mono e
    · simp at hreply
  · rw [hstate]
    exact h.bindings_mono hstate

/-- A call ends with the reply it got or without one. -/
theorem Settled.finish (h : Settled past w) {i : Nat} {call : TrackerCall} {reply : Option Bytes}
    (hcall : w.calls[i]? = some call) (hreply : ∀ r, reply = some r → call.reply = some r)
    (hafter : e.after = w.finish i call reply) : Settled (past ++ [e]) e.after := by
  have hmem : call ∈ w.calls := List.mem_of_getElem? hcall
  have hcalls : ∀ call' ∈ e.after.calls, call' ∈ w.calls ∨ call' = { call with waiting := false } := by
    intro call' hcall'
    rw [hafter] at hcall'
    exact List.mem_or_eq_of_mem_set hcall'
  have hstate : e.after.state = w.state := by rw [hafter]; rfl
  refine ⟨hstate ▸ h.consistent, ?_, ?_, ?_, ?_⟩
  · intro a ha
    have hsession : e.after.session a = if a = call.client then
        (TrackerClient.request (w.session call.client) reply).session else w.session a := by
      rw [hafter]
      simp [Deployment.finish, Function.update_apply]
    rw [hsession] at ha ⊢
    split at ha
    · next heq =>
      subst heq
      rw [if_pos rfl]
      cases reply with
      | none => exact (h.clients call.client ha).mono e
      | some r =>
        obtain ⟨response, session, rfl, hdrew⟩ := h.replies call hmem r (hreply r rfl)
        rw [TrackerClient.request_reply] at ha ⊢
        exact (hdrew ha).mono e
    · next hne =>
      rw [if_neg hne]
      exact (h.clients a ha).mono e
  · intro call' hcall' hne
    rcases hcalls call' hcall' with hold | rfl
    · exact (h.calls call' hold hne).mono e
    · exact (h.calls call hmem hne).mono e
  · intro call' hcall' r hr
    rcases hcalls call' hcall' with hold | rfl
    · exact (h.replies call' hold r hr).mono e
    · exact (h.replies call hmem r hr).mono e
  · rw [hstate]
    exact h.bindings_mono hstate

/-- The tracker executes a request: a session it binds or answers is one of its client. -/
theorem Settled.apply (h : Settled past w) {i : Nat} {call : TrackerCall} {context : ApplyContext}
    {s' : TrackerState} {result : CommandResult} (hcall : w.calls[i]? = some call)
    (heffect : Effect ssl w.state ⟨call.session, call.command, context⟩ s' result)
    (houtput : e.output = some (call.client, ⟨w.state, ⟨call.session, call.command, context⟩, result, s'⟩))
    (hafter : e.after = { w with
      state := s'
      calls := w.calls.set i { call with
        reply := some (result.response ++ lit "\t" ++ decimal result.session.toNat) } }) :
    Settled (past ++ [e]) e.after := by
  have hmem : call ∈ w.calls := List.mem_of_getElem? hcall
  have hdrawn : Drew (past ++ [e]) call.client context.newSession := ⟨e, by simp, _, houtput, rfl⟩
  have hcalls : ∀ call' ∈ e.after.calls, call' ∈ w.calls ∨ call' = { call with
      reply := some (result.response ++ lit "\t" ++ decimal result.session.toNat) } := by
    intro call' hcall'
    rw [hafter] at hcall'
    exact List.mem_or_eq_of_mem_set hcall'
  have hstate : e.after.state = s' := by rw [hafter]
  refine ⟨hstate ▸ heffect.consistent h.consistent, ?_, ?_, ?_, ?_⟩
  · rw [hafter]
    exact fun a ha => (h.clients a ha).mono e
  · intro call' hcall' hne
    rcases hcalls call' hcall' with hold | rfl
    · exact (h.calls call' hold hne).mono e
    · exact (h.calls call hmem hne).mono e
  · intro call' hcall' r hr
    rcases hcalls call' hcall' with hold | rfl
    · exact (h.replies call' hold r hr).mono e
    · obtain rfl := Option.some.inj hr
      refine ⟨_, _, rfl, fun hne => ?_⟩
      rcases replySession heffect with hz | hsame | ⟨-, hnew⟩
      · exact absurd hz hne
      · rw [hsame] at hne ⊢
        exact (h.calls call hmem hne).mono e
      · rw [hnew]
        exact hdrawn
  · intro k user hk
    rw [hstate] at hk
    rcases heffect.session h.consistent hk with hold | ⟨hzero, hbinds, hnumber⟩
    · obtain ⟨a, hdrew, hbound⟩ := h.bindings k user hold
      exact ⟨a, hdrew.mono e, hbound.mono (by rw [hstate]; exact hk)⟩
    · refine ⟨call.client, ?_, past, e, [], _, rfl, houtput, hbinds, by simp⟩
      rcases hnumber with ⟨-, rfl⟩ | rfl
      · exact hdrawn
      · exact (h.calls call hmem hzero).mono e

theorem Settled.restart (h : Settled past w) (hafter : e.after = { w with state := TrackerState.empty }) :
    Settled (past ++ [e]) e.after := by
  rw [hafter]
  exact ⟨empty_consistent, fun a ha => (h.clients a ha).mono e, fun call hcall hne => (h.calls call hcall hne).mono e,
    fun call hcall reply hreply => (h.replies call hcall reply hreply).mono e, by simp [TrackerState.empty]⟩

theorem Settled.step (h : Settled past w) (action : Action) :
    Settled (past ++ [Machine.event (step ssl) w action]) (step ssl w action).1 := by
  have hidle : ∀ {output : Option (Nat × TrackerEvent)}, Deployment.step ssl w action = (w, output) →
      Settled (past ++ [Machine.event (Deployment.step ssl) w action]) (Deployment.step ssl w action).1 := by
    intro output hsame
    have hafter : (Machine.event (Deployment.step ssl) w action).after = w := by simp [Machine.event, hsame]
    have hidle := h.idle hafter
    rw [hsame]
    exact hidle
  cases action with
  | request client command =>
    by_cases hbusy : w.busy client = true
    · exact hidle (by simp [Deployment.step, hbusy]; rfl)
    · have hafter : (Machine.event (Deployment.step ssl) w (.request client command)).after =
          { w with calls := w.calls ++ [⟨client, w.session client, command, true, none⟩] } := by
        simp [Machine.event, Deployment.step, hbusy]
      exact h.request hafter
  | apply i context =>
    cases hcall : w.calls[i]? with
    | none => exact hidle (by simp only [Deployment.step, hcall]; rfl)
    | some call =>
      cases hreply : call.reply with
      | some reply => exact hidle (by simp only [Deployment.step, hcall, hreply]; rfl)
      | none =>
        refine h.apply hcall (@apply_effect ssl w.state ⟨call.session, call.command, context⟩) ?_ ?_
        · simp only [Machine.event, Deployment.step, hcall, hreply]
        · simp only [Machine.event, Deployment.step, hcall, hreply, TrackerService.handle_message, TrackerState.step]
  | receive i =>
    cases hcall : w.calls[i]? with
    | none => exact hidle (by simp only [Deployment.step, hcall]; rfl)
    | some call =>
      cases hwaiting : call.waiting with
      | false => exact hidle (by simp only [Deployment.step, hcall, hwaiting]; rfl)
      | true =>
        cases hreply : call.reply with
        | none => exact hidle (by simp only [Deployment.step, hcall, hwaiting, hreply]; rfl)
        | some reply =>
          exact h.finish hcall (fun r hr => hreply.trans hr)
            (by simp only [Machine.event, Deployment.step, hcall, hwaiting, hreply])
  | giveUp i =>
    cases hcall : w.calls[i]? with
    | none => exact hidle (by simp only [Deployment.step, hcall]; rfl)
    | some call =>
      cases hwaiting : call.waiting with
      | false => exact hidle (by simp only [Deployment.step, hcall, hwaiting]; rfl)
      | true =>
        have hnone : ∀ r, (none : Option Bytes) = some r → call.reply = some r := by simp
        exact h.finish hcall hnone (by simp only [Machine.event, Deployment.step, hcall, hwaiting, if_true])
  | restart => exact h.restart rfl

end Steps

theorem settled (ssl : OpenSsl) (actions : List Action) :
    Settled (Machine.events (step ssl) init actions) (Machine.run (step ssl) init actions) :=
  Machine.history ⟨empty_consistent, by simp [init], by simp [init], by simp [init],
    by simp [init, TrackerState.empty]⟩ (fun _ _ action _ h => h.step action) actions

/-- What the tracker executes for a client it executes as a user this client has logged in as. -/
theorem executed_as {actions : List Action} {x : TrackerEvent} {action : Action}
    (hfresh : (draws (Machine.events (step ssl) init actions)).Nodup)
    (hx : (step ssl (Machine.run (step ssl) init actions) action).2 = some (a, x)) (hby : By x user) :
    BoundBy (Machine.events (step ssl) init actions) a x.input.session user := by
  have h := settled ssl actions
  cases action with
  | apply i context =>
    simp only [step] at hx
    split at hx
    · simp at hx
    · next call hcall =>
      split at hx
      · simp at hx
      · obtain ⟨rfl, rfl⟩ : call.client = a ∧ _ = x := by simpa using hx
        obtain ⟨b, hdrew, hbound⟩ := h.bindings call.session user hby
        have hne : call.session ≠ 0 := by
          intro hz
          have hnone := h.consistent.session_zero
          rw [← hz] at hnone
          exact absurd (hnone.symm.trans hby) (by simp)
        rw [(h.calls call (List.mem_of_getElem? hcall) hne).unique hfresh hdrew]
        exact hbound
  | request client command =>
    simp only [step] at hx
    split at hx <;> simp at hx
  | receive i =>
    simp only [step] at hx
    split at hx
    · simp at hx
    · split at hx <;> simp at hx
  | giveUp i =>
    simp only [step] at hx
    split at hx
    · simp at hx
    · split at hx <;> simp at hx
  | restart => simp [step] at hx

/-- If no session number is drawn twice, clients never share one, not even a request on its way carries another
client's; whatever a client's number is bound to, a login of that client bound it; and so every command is executed
as a user its own client has logged in as. -/
theorem session_agreement (ssl : OpenSsl) (actions : List Action)
    (hfresh : (draws (Machine.events (step ssl) init actions)).Nodup) :
    (∀ a b, a ≠ b → (Machine.run (step ssl) init actions).session a ≠ 0 →
      (Machine.run (step ssl) init actions).session a ≠ (Machine.run (step ssl) init actions).session b) ∧
    (∀ call ∈ (Machine.run (step ssl) init actions).calls, ∀ b, b ≠ call.client →
      (Machine.run (step ssl) init actions).session b ≠ 0 →
      call.session ≠ (Machine.run (step ssl) init actions).session b) ∧
    (∀ a user, (Machine.run (step ssl) init actions).state.sessions.find
        ((Machine.run (step ssl) init actions).session a) = some user →
      BoundBy (Machine.events (step ssl) init actions) a ((Machine.run (step ssl) init actions).session a) user) ∧
    ∀ past e future a x user, Machine.events (step ssl) init actions = past ++ e :: future → e.output = some (a, x) →
      By x user → BoundBy past a x.input.session user := by
  have h := settled ssl actions
  refine ⟨fun a b hab ha heq => ?_, fun call hcall b hb hne heq => ?_, fun a user hk => ?_, ?_⟩
  · have hdrew := h.clients a ha
    rw [heq] at ha hdrew
    exact hab (hdrew.unique hfresh (h.clients b ha))
  · have hdrew := h.calls call hcall (heq ▸ hne)
    rw [heq] at hdrew
    exact hb ((h.clients b hne).unique hfresh hdrew)
  · obtain ⟨b, hdrew, hbound⟩ := h.bindings _ user hk
    have hne : (Machine.run (step ssl) init actions).session a ≠ 0 := by
      intro hz
      rw [hz, h.consistent.session_zero] at hk
      simp at hk
    obtain rfl := (h.clients a hne).unique hfresh hdrew
    exact hbound
  · intro past e future a x user hsplit hx hby
    obtain ⟨before, action, after, rfl, rfl, rfl, -⟩ := Machine.events_split hsplit
    have hpast : (draws (Machine.events (step ssl) init before)).Nodup := by
      rw [hsplit, draws, List.filterMap_append] at hfresh
      exact (List.nodup_append.mp hfresh).1
    exact executed_as hpast hx hby

/-- Alice's first login is applied after her client has given up on it; the second one counts. -/
def lostLogin : List Action := [
  .request 0 (lit "create_user alice apple"), .apply 0 ⟨saltOfAlice, 5, 1000⟩, .receive 0,
  .request 0 (lit "login alice apple"), .giveUp 1,
  .request 0 (lit "login alice apple"), .apply 2 ⟨[], 9, 1000⟩, .apply 1 ⟨[], 7, 1000⟩, .receive 2]

theorem session_agreement_lost_login :
    (Machine.run (step recording.replay) init lostLogin).state.sessions.find 7 = some (lit "alice") ∧
      BoundBy (Machine.events (step recording.replay) init lostLogin) 0 9 (lit "alice") := by
  have hsession : (Machine.run (step recording.replay) init lostLogin).session 0 = 9 := by decide +kernel
  refine ⟨by decide +kernel, ?_⟩
  have hbound := (session_agreement recording.replay lostLogin (by decide +kernel)).2.2.1 0 (lit "alice")
    (by rw [hsession]; decide +kernel)
  rwa [hsession] at hbound

end Deployment

end TorrentAtlas
