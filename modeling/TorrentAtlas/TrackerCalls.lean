import TorrentAtlas.AtMostOnce
import TorrentAtlas.TrackerWire

/-!
# What a call to the tracker returns

A client opens the one response frame under its session key and the tracker's label. Only
the tracker encrypts so, once per connection, and only after it has read a request under the
same key; the transcript in that key names the client's own hello, so the request is the
client's own too.
-/
namespace TorrentAtlas

open Encoding Crypto SecureChannel

namespace World

variable {ssl : OpenSsl} {identity : KeyPair}

/-- A step of the tracker that reads a request from a frame and answers it. -/
structure Serves (ssl : OpenSsl) (e : Event World Action (Option Bytes)) (j : Nat) (key frame request reply : Bytes) :
    Prop where
  input : ∃ context random, e.input = .acceptRequest j frame context random ∧
    TrackerService.handle ssl e.before.state context request = (e.after.state, reply)
  received : receive ssl key CLIENT_LABEL frame = some request
  applied : e.after.applied = e.before.applied ++ [⟨j, frame, request⟩]

/-- The clients' draws are fresh as well, and AES-GCM is ideal for the frames that clients open. -/
def ClientGuarded (ssl : OpenSsl) (w : World) : Action → Prop
  | .connect _ (some ephemeral) nonce _ =>
    ∀ r ∈ w.connects, r.ephemeral.publicKey = ephemeral.publicKey → r.nonce ≠ nonce
  | .connectResponse _ frame => IdealGcm ssl w.sealings (messageOf frame)
  | _ => True

/-- What a step does to the runs of `callTracker`, with the phases it has checked. -/
inductive ConnectChange (ssl : OpenSsl) (w : World) : Action → List ConnectRun → Prop
  | same (action : Action) : ConnectChange ssl w action w.connects
  | started (request : Bytes) (ephemeral : KeyPair) (nonce : Bytes) (now : Int) :
      ConnectChange ssl w (.connect request (some ephemeral) nonce now)
        (w.connects ++ [⟨request, ephemeral, nonce, now, .waiting, none⟩])
  | refused (i : Nat) (reply : Bytes) (now : Int) (random : Bytes) (r : ConnectRun) (hr : w.connects[i]? = some r)
      (hphase : r.phase = .waiting) :
      ConnectChange ssl w (.connectReply i reply now random) (w.connects.set i { r with phase := .failed })
  | verified (i : Nat) (reply : Bytes) (now : Int) (random : Bytes) (r : ConnectRun) (session : Session)
      (hr : w.connects[i]? = some r) (hphase : r.phase = .waiting)
      (htext : session.signedText = transcript r.hello session.serverFields) :
      ConnectChange ssl w (.connectReply i reply now random)
        (w.connects.set i { r with phase := .established session ⟨random, session.key, CLIENT_LABEL, r.request⟩ })
  | answered (i : Nat) (frame : Bytes) (r : ConnectRun) (session : Session) (sealing : Sealing)
      (hr : w.connects[i]? = some r) (hphase : r.phase = .established session sealing) (hnone : r.response = none) :
      ConnectChange ssl w (.connectResponse i frame)
        (w.connects.set i { r with response := some (receive ssl session.key TRACKER_LABEL frame) })

theorem step_connects (ssl : OpenSsl) (identity : KeyPair) (w : World) (action : Action) :
    ConnectChange ssl w action (step ssl identity w action).1.connects := by
  cases action with
  | connect request ephemeral nonce now =>
    cases ephemeral with
    | none => exact .same _
    | some ephemeral =>
      simp only [step]
      split
      · exact .same _
      · exact .started request ephemeral nonce now
  | connectReply i reply now random =>
    simp only [step]
    split
    · exact .same _
    · next r hr =>
      split
      · next hphase =>
        split
        · exact .refused i reply now random r hr hphase
        · next session hsession =>
          obtain ⟨-, -, -, -, -, -, -, -, htext, -⟩ := connectFinish_eq_some hsession
          exact .verified i reply now random r session hr hphase htext
      · exact .same _
  | connectResponse i frame =>
    simp only [step]
    split
    · exact .same _
    · next r hr =>
      split
      · next session sealing hphase hnone => exact .answered i frame r session sealing hr hphase hnone
      · exact .same _
  | accept hello ephemeral nonce parsed now sent =>
    simp only [step]
    split
    · exact .same _
    · split <;> exact .same _
  | acceptRequest j frame context random =>
    simp only [step]
    split
    · exact .same _
    · split
      · split <;> exact .same _
      · exact .same _
  | foreign sealing => exact .same _

/-- Where an encryption comes from. -/
inductive Origin (ssl : OpenSsl) (past : List (Event World Action (Option Bytes))) (w : World) (s : Sealing) : Prop
  | foreign (e : Event World Action (Option Bytes)) (he : e ∈ past) (hinput : e.input = .foreign s)
  | client (r : ConnectRun) (hr : r ∈ w.connects) (session : Session) (hphase : r.phase = .established session s)
      (hlabel : s.aad = CLIENT_LABEL)
  | tracker (e : Event World Action (Option Bytes)) (he : e ∈ past) (j : Nat) (frame request : Bytes)
      (hserves : Serves ssl e j s.key frame request s.plain) (hlabel : s.aad = TRACKER_LABEL)
      (happlied : ⟨j, frame, request⟩ ∈ w.applied) (hkey : ∃ a, w.accepts[j]? = some a ∧ a.key = some s.key)

/-- What is known of a run of the world by its history. -/
structure Traced (ssl : OpenSsl) (past : List (Event World Action (Option Bytes))) (w : World) : Prop where
  once : Once ssl w
  origin : ∀ s ∈ w.sealings, Origin ssl past w s
  hellos : (w.connects.map ConnectRun.hello).Nodup
  texts : ∀ r ∈ w.connects, ∀ session sealing, r.phase = .established session sealing →
    session.signedText = transcript r.hello session.serverFields
  responses : ∀ r ∈ w.connects, ∀ session sealing reply, r.phase = .established session sealing →
    r.response = some (some reply) →
      ∃ s ∈ w.sealings, s.key = session.key ∧ s.aad = TRACKER_LABEL ∧ s.plain = reply
  silent : ∀ r ∈ w.connects, r.phase = .waiting → r.response = none

section Step

variable {past : List (Event World Action (Option Bytes))} {w : World} {action : Action}

theorem hello_injective {r r' : ConnectRun} (h : r.hello = r'.hello) :
    r.ephemeral.publicKey = r'.ephemeral.publicKey ∧ r.nonce = r'.nonce := by
  have hs := congrArg (List.splitOn (chr '|')) h
  simp only [ConnectRun.hello, splitOn_connectHello, List.cons.injEq, and_true, true_and] at hs
  exact ⟨toHex_injective hs.1, toHex_injective hs.2.1⟩

/-- An established run stays established, with the encryption it made. -/
theorem ConnectChange.established {connects : List ConnectRun} (h : ConnectChange ssl w action connects)
    {r : ConnectRun} (hr : r ∈ w.connects) {session : Session} {sealing : Sealing}
    (hphase : r.phase = .established session sealing) :
    ∃ r' ∈ connects, r'.phase = .established session sealing := by
  have hset : ∀ (i : Nat) (old new : ConnectRun), w.connects[i]? = some old →
      (old.phase = .established session sealing → new.phase = .established session sealing) →
      ∃ r' ∈ w.connects.set i new, r'.phase = .established session sealing := by
    intro i old new hold hnew
    obtain ⟨k, hk⟩ := List.mem_iff_getElem?.mp hr
    by_cases hik : i = k
    · subst hik
      obtain rfl := Option.some.inj (hold.symm.trans hk)
      exact ⟨new, List.mem_set (List.getElem?_eq_some_iff.mp hold).1 new, hnew hphase⟩
    · refine ⟨r, List.mem_of_getElem? (i := k) ?_, hphase⟩
      rw [List.getElem?_set_ne hik, hk]
  cases h with
  | same => exact ⟨r, hr, hphase⟩
  | started => exact ⟨r, List.mem_append_left _ hr, hphase⟩
  | refused i reply now random old hold hwait =>
    exact hset i old _ hold fun h => absurd (hwait.symm.trans h) (by simp)
  | verified i reply now random old session' hold hwait =>
    exact hset i old _ hold fun h => absurd (hwait.symm.trans h) (by simp)
  | answered i frame old session' sealing' hold => exact hset i old _ hold id

theorem applied_mono {w' : World} (h : Change ssl identity w action w') : ∀ p ∈ w.applied, p ∈ w'.applied := by
  intro p hp
  cases h <;> simp [hp]

theorem Origin.mono {s : Sealing} {e : Event World Action (Option Bytes)} (h : Origin ssl past w s) :
    Origin ssl (past ++ [e]) (step ssl identity w action).1 s := by
  cases h with
  | foreign e' he hinput => exact .foreign e' (List.mem_append_left _ he) hinput
  | client r hr session hphase hlabel =>
    obtain ⟨r', hr', hphase'⟩ := (step_connects ssl identity w action).established hr hphase
    exact .client r' hr' session hphase' hlabel
  | tracker e' he j frame request hserves hlabel happlied hkey =>
    obtain ⟨a, ha, hakey⟩ := hkey
    obtain ⟨a', ha', -, hsame, -⟩ := accepts_mono (step_change ssl identity w action) ha
    exact .tracker e' (List.mem_append_left _ he) j frame request hserves hlabel
      (applied_mono (step_change ssl identity w action) _ happlied) ⟨a', ha', hsame.trans hakey⟩

theorem origin_step (h : ∀ s ∈ w.sealings, Origin ssl past w s) :
    ∀ s ∈ (step ssl identity w action).1.sealings,
      Origin ssl (past ++ [Machine.event (step ssl identity) w action]) (step ssl identity w action).1 s := by
  intro s hs
  have hold : s ∈ w.sealings → Origin ssl (past ++ [Machine.event (step ssl identity) w action])
      (step ssl identity w action).1 s := fun hs => (h s hs).mono
  have hmem : Machine.event (step ssl identity) w action ∈ past ++ [Machine.event (step ssl identity) w action] := by
    simp
  have hbefore : (Machine.event (step ssl identity) w action).before = w := rfl
  have hinput : (Machine.event (step ssl identity) w action).input = action := rfl
  have hafter : (Machine.event (step ssl identity) w action).after = (step ssl identity w action).1 := rfl
  have hchange := step_change ssl identity w action
  generalize Machine.event (step ssl identity) w action = e at *
  generalize (step ssl identity w action).1 = w' at *
  cases hchange with
  | verified i reply now random r session hr hsession =>
    rcases List.mem_append.mp hs with hs | hs
    · exact hold hs
    · rw [List.mem_singleton.mp hs]
      exact .client _ (List.mem_set (List.getElem?_eq_some_iff.mp hr).1 _) session rfl rfl
  | served j frame context random a key request ha hkey hserved hreceive =>
    rcases List.mem_append.mp hs with hs | hs
    · exact hold hs
    · rw [List.mem_singleton.mp hs]
      have hlt := (List.getElem?_eq_some_iff.mp ha).1
      refine .tracker e hmem j frame request ?_ rfl (by simp) ⟨{ a with served := true }, by simp [hlt], hkey⟩
      exact ⟨⟨context, random, hinput, by rw [hbefore, hafter]⟩, hreceive, by rw [hbefore, hafter]⟩
  | foreign sealing =>
    rcases List.mem_append.mp hs with hs | hs
    · exact hold hs
    · rw [List.mem_singleton.mp hs]
      exact .foreign e hmem hinput
  | _ => exact hold hs

/-- A run that replaces another one keeps its hello. -/
theorem map_hello_set {runs : List ConnectRun} {i : Nat} {r r' : ConnectRun} (hr : runs[i]? = some r)
    (h : r'.hello = r.hello) : (runs.set i r').map ConnectRun.hello = runs.map ConnectRun.hello := by
  refine List.ext_getElem? fun k => ?_
  rw [List.map_set, List.getElem?_set]
  split
  · next hk =>
    subst hk
    obtain ⟨hlt, hget⟩ := List.getElem?_eq_some_iff.mp hr
    simp [hlt, hget, h]
  · rfl

theorem Traced.step (h : Traced ssl past w) (hguard : Guarded ssl w action) (hclient : ClientGuarded ssl w action) :
    Traced ssl (past ++ [Machine.event (World.step ssl identity) w action]) (World.step ssl identity w action).1 := by
  have hchange := step_connects ssl identity w action
  have hsealings := sealings_mono (step_change ssl identity w action)
  refine ⟨h.once.step hguard, origin_step h.origin, ?_, ?_, ?_, ?_⟩
  all_goals generalize (World.step ssl identity w action).1 = w' at hchange hsealings ⊢
  all_goals generalize w'.connects = connects at hchange ⊢
  · cases hchange with
    | same => exact h.hellos
    | started request ephemeral nonce now =>
      rw [List.map_append, List.map_singleton, ← List.concat_eq_append]
      refine h.hellos.concat fun hmem => ?_
      obtain ⟨r, hr, hsame⟩ := List.mem_map.mp hmem
      obtain ⟨hkey, hnonce⟩ := hello_injective hsame
      exact hclient r hr hkey hnonce
    | refused i reply now random r hr | verified i reply now random r session hr
    | answered i frame r session sealing hr =>
      rw [map_hello_set hr]
      · exact h.hellos
      · rfl
  · cases hchange with
    | same => exact h.texts
    | started request ephemeral nonce now =>
      intro r hr
      rcases List.mem_append.mp hr with hr | hr
      · exact h.texts r hr
      · rw [List.mem_singleton.mp hr]
        intro session sealing hphase
        simp at hphase
    | refused i reply now random r hr => exact forall_mem_set h.texts fun session sealing hphase => by simp at hphase
    | verified i reply now random r session hr hphase htext =>
      refine forall_mem_set h.texts ?_
      rintro session' sealing' hphase'
      obtain ⟨rfl, -⟩ : session = session' ∧ _ = sealing' := by simpa using hphase'
      exact htext
    | answered i frame r session sealing hr =>
      have hold := h.texts r (List.mem_of_getElem? hr)
      exact forall_mem_set h.texts hold
  · have hold : ∀ r ∈ w.connects, ∀ session sealing reply, r.phase = .established session sealing →
        r.response = some (some reply) →
          ∃ s ∈ w'.sealings, s.key = session.key ∧ s.aad = TRACKER_LABEL ∧ s.plain = reply := by
      intro r hr session sealing reply hphase hresponse
      obtain ⟨s, hs, hrest⟩ := h.responses r hr session sealing reply hphase hresponse
      exact ⟨s, hsealings s hs, hrest⟩
    cases hchange with
    | same => exact hold
    | started request ephemeral nonce now =>
      intro r hr
      rcases List.mem_append.mp hr with hr | hr
      · exact hold r hr
      · rw [List.mem_singleton.mp hr]
        intro session sealing reply hphase
        simp at hphase
    | refused i reply now random r hr =>
      exact forall_mem_set hold fun session sealing reply hphase => by simp at hphase
    | verified i reply now random r session hr hphase =>
      refine forall_mem_set hold ?_
      intro session' sealing' reply' _ hresponse
      have hnone : r.response = none := h.silent r (List.mem_of_getElem? hr) hphase
      simp [hnone] at hresponse
    | answered i frame r session sealing hr hphase =>
      refine forall_mem_set hold ?_
      intro session' sealing' reply hphase' hresponse
      obtain ⟨rfl, rfl⟩ : session = session' ∧ sealing = sealing' := by simpa [hphase] using hphase'
      obtain ⟨hlen, hdecrypt⟩ := receive_eq_some (Option.some.inj hresponse)
      obtain ⟨s, hs, hkey, haad, hplain, -⟩ := hclient session.key TRACKER_LABEL reply hdecrypt
      exact ⟨s, hsealings s hs, hkey, haad, hplain⟩
  · cases hchange with
    | same => exact h.silent
    | started request ephemeral nonce now =>
      intro r hr
      rcases List.mem_append.mp hr with hr | hr
      · exact h.silent r hr
      · rw [List.mem_singleton.mp hr]
        exact fun _ => rfl
    | refused i reply now random r hr => exact forall_mem_set h.silent fun hphase => by simp at hphase
    | verified i reply now random r session hr => exact forall_mem_set h.silent fun hphase => by simp at hphase
    | answered i frame r session sealing hr hphase =>
      exact forall_mem_set h.silent fun hwait => absurd (hphase.symm.trans hwait) (by simp)

end Step

theorem init_traced : Traced ssl [] init := by
  refine ⟨init_once, ?_, ?_, ?_, ?_, ?_⟩ <;> simp [init]

/-- Nobody else encrypts under the session key of a client. -/
def KeysSecret (actions : List Action) (w : World) : Prop :=
  ∀ s, Action.foreign s ∈ actions → ∀ r ∈ w.connects, ∀ session sealing,
    r.phase = .established session sealing → s.key ≠ session.key

section Origin

variable {past : List (Event World Action (Option Bytes))} {w : World} {r : ConnectRun} {session : Session}
  {sealing s : Sealing}

/-- Clients with one session key are one client. -/
theorem Traced.client_unique (h : Traced ssl past w) (hfree : CollisionFree ssl w.hashed) (hr : r ∈ w.connects)
    (hphase : r.phase = .established session sealing) {r' : ConnectRun} (hr' : r' ∈ w.connects) {session' : Session}
    {sealing' : Sealing} (hphase' : r'.phase = .established session' sealing') (hkey : session'.key = session.key) :
    r' = r := by
  obtain ⟨-, -, -, hof⟩ := h.once.sessions r hr session sealing hphase
  obtain ⟨-, -, -, hof'⟩ := h.once.sessions r' hr' session' sealing' hphase'
  rw [hkey] at hof'
  have htext := KeyOf.unique hfree hof' hof
  rw [h.texts r hr session sealing hphase, h.texts r' hr' session' sealing' hphase'] at htext
  have hfour : ∀ r : ConnectRun, (r.hello.splitOn (chr '|')).length = 4 := by
    intro r
    rw [ConnectRun.hello, splitOn_connectHello]
    rfl
  exact List.inj_on_of_nodup_map h.hellos hr' hr (transcript_injective (hfour r') (hfour r) htext).1

/-- An encryption under the session key of a client is its request, or the tracker's answer to a request that came under
the same key. -/
theorem Traced.origin_of_key (h : Traced ssl past w) (hfree : CollisionFree ssl w.hashed)
    (hforeign : ∀ e ∈ past, e.input = .foreign s → s.key ≠ session.key) (hr : r ∈ w.connects)
    (hphase : r.phase = .established session sealing) (hs : s ∈ w.sealings) (hkey : s.key = session.key) :
    s.aad = CLIENT_LABEL ∧ s.plain = r.request ∨
      ∃ e ∈ past, ∃ j frame request, Serves ssl e j session.key frame request s.plain ∧ s.aad = TRACKER_LABEL ∧
        ⟨j, frame, request⟩ ∈ w.applied ∧ ∃ a, w.accepts[j]? = some a ∧ a.key = some session.key := by
  cases h.origin s hs with
  | foreign e he hinput => exact absurd hkey (hforeign e he hinput)
  | client r' hr' session' hphase' hlabel =>
    obtain ⟨-, hkey', hplain, -⟩ := h.once.sessions r' hr' session' s hphase'
    obtain rfl := h.client_unique hfree hr hphase hr' hphase' (hkey'.symm.trans hkey)
    exact Or.inl ⟨hlabel, hplain⟩
  | tracker e he j frame request hserves hlabel happlied hakey =>
    exact Or.inr ⟨e, he, j, frame, request, hkey ▸ hserves, hlabel, happlied, hkey ▸ hakey⟩

/-- A request that was applied under the session key of a client is that client's request. -/
theorem Traced.request_of_key (h : Traced ssl past w) (hfree : CollisionFree ssl w.hashed)
    (hforeign : ∀ s : Sealing, ∀ e ∈ past, e.input = .foreign s → s.key ≠ session.key) (hr : r ∈ w.connects)
    (hphase : r.phase = .established session sealing) {p : Applied} (hp : p ∈ w.applied) {a : AcceptRun}
    (ha : w.accepts[p.connection]? = some a) (hakey : a.key = some session.key) : p.request = r.request := by
  obtain ⟨a', key, ha', hkey, -, -, s, hs, rfl, haad, hplain, -⟩ := h.once.requests p hp
  obtain rfl := Option.some.inj (ha.symm.trans ha')
  have hsame : s.key = session.key := Option.some.inj (hkey.symm.trans hakey)
  rcases h.origin_of_key hfree (hforeign s) hr hphase hs hsame with ⟨-, hrequest⟩ | ⟨-, -, -, -, -, -, hlabel, -⟩
  · exact hplain.symm.trans hrequest
  · exact absurd (haad.symm.trans hlabel) (by decide)

end Origin

/-- What a client accepts as the answer to its call is what the tracker answered to exactly its request, on the one
connection that has the client's hello; no other request was run under this session key. The client reads from it the
response and the session that `apply` returned for its command. -/
theorem reply_authentic (ssl : OpenSsl) (identity : KeyPair) (actions : List Action)
    (hguard : Machine.Along (World.step ssl identity) (fun w action => Guarded ssl w action ∧ ClientGuarded ssl w action)
      init actions)
    (hfree : CollisionFree ssl (Machine.run (World.step ssl identity) init actions).hashed)
    (hsecret : KeysSecret actions (Machine.run (World.step ssl identity) init actions)) :
    let w := Machine.run (World.step ssl identity) init actions
    ∀ r ∈ w.connects, ∀ session sealing reply, r.phase = .established session sealing →
      r.response = some (some reply) →
      ∃ e ∈ Machine.events (World.step ssl identity) init actions, ∃ j frame,
        Serves ssl e j session.key frame r.request reply ∧
        (∃ a, w.accepts[j]? = some a ∧ a.offer.hello = r.hello ∧ a.key = some session.key) ∧
        (∀ p ∈ w.applied, (∃ a, w.accepts[p.connection]? = some a ∧ a.key = some session.key) →
          p = ⟨j, frame, r.request⟩) ∧
        ∀ number command, r.request = TrackerClient.message number command → ∃ context,
          (e.before.state.apply ssl number command context).1 = e.after.state ∧
          TrackerClient.request number (some reply) =
            ⟨true, (e.before.state.apply ssl number command context).2.response,
              (e.before.state.apply ssl number command context).2.session⟩ := by
  intro w r hr session sealing reply hphase hresponse
  have h : Traced ssl (Machine.events (World.step ssl identity) init actions) w :=
    Machine.history_along init_traced (fun _ _ _ h hg => h.step hg.1 hg.2) hguard
  have hforeign : ∀ s : Sealing, ∀ e ∈ Machine.events (World.step ssl identity) init actions,
      e.input = .foreign s → s.key ≠ session.key := by
    intro s e he hinput
    exact hsecret s (hinput ▸ Machine.input_mem he) r hr session sealing hphase
  obtain ⟨s, hs, hkey, haad, rfl⟩ := h.responses r hr session sealing reply hphase hresponse
  rcases h.origin_of_key hfree (hforeign s) hr hphase hs hkey with
    ⟨hlabel, -⟩ | ⟨e, he, j, frame, request, hserves, -, happlied, a, ha, hakey⟩
  · exact absurd (hlabel.symm.trans haad) (by decide)
  obtain rfl := h.request_of_key hfree hforeign hr hphase happlied ha hakey
  refine ⟨e, he, j, frame, hserves, ⟨a, ha, ?_, hakey⟩, ?_, ?_⟩
  · -- Both transcripts are in the key, so they are one, and it begins with the hello.
    have hoffer : (a.offer, a.key) ∈ w.offers := List.mem_map_of_mem (List.mem_of_getElem? ha)
    obtain ⟨-, -, -, hof⟩ := h.once.sessions r hr session sealing hphase
    have hok := h.once.offers _ hoffer
    have htext := KeyOf.unique hfree (h.once.keys _ hoffer _ hakey) hof
    rw [hok.signed, h.texts r hr session sealing hphase] at htext
    exact (transcript_injective hok.fields (by rw [ConnectRun.hello, splitOn_connectHello]; rfl) htext).1
  · rintro p hp ⟨b, hb, hbkey⟩
    have hconnection := h.once.connection_unique hfree hb ha hbkey hakey
    exact List.inj_on_of_nodup_map h.once.connections hp happlied hconnection
  · intro number command hmessage
    obtain ⟨context, random, -, hhandle⟩ := hserves.input
    rw [hmessage, TrackerService.handle_message, Prod.mk.injEq] at hhandle
    obtain ⟨hstate, hreply⟩ := hhandle
    exact ⟨context, hstate, by rw [← hreply, TrackerClient.request_reply]⟩

section Example

/-- After the replays, the tracker's answer reaches the client. -/
def answeredRequest : List Action := replayedRequest ++ [.connectResponse 0 (frameOf replyMessage)]

theorem replySealing_message : replySealing.message sealedRecording.replay = some replyMessage := by decide +kernel

theorem idealGcm_replyMessage {log : List Sealing} (h : replySealing ∈ log) :
    IdealGcm sealedRecording.replay log (messageOf (frameOf replyMessage)) := by
  rw [messageOf_frameOf (by decide) (by decide)]
  intro key aad plain hplain
  obtain ⟨s, hs, rfl, -, rfl, rfl, -, htag⟩ := Recording.of_decrypt (by decide) hplain
  simp only [sealedRecording, List.mem_cons, List.not_mem_nil, or_false] at hs
  rcases hs with rfl | rfl
  · exact absurd htag (by decide)
  · exact ⟨replySealing, h, rfl, rfl, rfl, replySealing_message⟩

theorem reply_authentic_login_required :
    ∃ e ∈ Machine.events (World.step sealedRecording.replay trackerIdentity) init answeredRequest, ∃ j frame,
      Serves sealedRecording.replay e j channelKey frame listGroups (lit "ERR login required\t0") ∧
      TrackerClient.request 0 (some (lit "ERR login required\t0")) = ⟨true, lit "ERR login required", 0⟩ := by
  let w := Machine.run (World.step sealedRecording.replay trackerIdentity) init answeredRequest
  let session : Session := ⟨helloFields 1001 ofTracker trackerNonce, signedText, channelKey⟩
  let r : ConnectRun := ⟨listGroups, ofClient, clientNonce, 1000, .established session requestSealing,
    some (some (lit "ERR login required\t0"))⟩
  have hrun : w.connects = [r] ∧ w.hashed = [secret ++ signedText, secret' ++ signedText', secret ++ signedText] := by
    decide +kernel
  obtain ⟨hconnects, hhashed⟩ := hrun
  have hguard : Machine.Along (World.step sealedRecording.replay trackerIdentity)
      (fun w action => Guarded sealedRecording.replay w action ∧ ClientGuarded sealedRecording.replay w action) init
      answeredRequest := by
    refine ⟨⟨trivial, by simp [ClientGuarded, init]⟩, ⟨?_, trivial⟩, ⟨?_, trivial⟩, ⟨trivial, trivial⟩,
      ⟨idealGcm_requestMessage (by decide +kernel), trivial⟩, ⟨idealGcm_requestMessage (by decide +kernel), trivial⟩,
      ⟨idealGcm_requestMessage (by decide +kernel), trivial⟩, ⟨trivial, idealGcm_replyMessage (by decide +kernel)⟩,
      trivial⟩
    all_goals
      simp only [Guarded]
      decide +kernel
  have hfree : CollisionFree sealedRecording.replay w.hashed := by
    have hne : sealedRecording.replay.SHA256 (secret ++ signedText) ≠
        sealedRecording.replay.SHA256 (secret' ++ signedText') := by decide +kernel
    rw [hhashed]
    generalize secret ++ signedText = input, secret' ++ signedText' = input' at hne ⊢
    intro x hx y hy digest hdx hdy
    simp only [List.mem_cons, List.not_mem_nil, or_false] at hx hy
    rcases hx with rfl | rfl | rfl <;> rcases hy with rfl | rfl | rfl <;>
      first
        | rfl
        | exact absurd (hdx.trans hdy.symm) hne
        | exact absurd (hdy.trans hdx.symm) hne
  have hsecret : KeysSecret answeredRequest w := by
    intro s hs
    simp [answeredRequest, replayedRequest, replayedHello] at hs
  obtain ⟨e, he, j, frame, hserves, -⟩ := reply_authentic sealedRecording.replay trackerIdentity answeredRequest hguard
    hfree hsecret r (by rw [show Machine.run _ _ _ = w from rfl, hconnects]; exact List.mem_singleton_self _) session
    requestSealing _ rfl rfl
  exact ⟨e, he, j, frame, hserves, by decide +kernel⟩

end Example

end World

end TorrentAtlas
