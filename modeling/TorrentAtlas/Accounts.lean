import TorrentAtlas.Revocation

/-!
# Accounts and sessions

The history explains who can log in and what the session numbers are. An account
is left by the one successful `create_user` for its name and never changes; a
bound session goes back to the login that bound it.
-/
namespace TorrentAtlas

open Encoding Crypto

namespace Password

variable {ssl : OpenSsl} {password secret salt : Bytes}

/-- PBKDF2 as the stored hashes use it. -/
def derive (ssl : OpenSsl) (password salt : Bytes) : Bytes := pbkdf2Sha256 ssl password salt ITERATIONS DIGEST_SIZE

theorem length_derive (h : derive ssl password salt ≠ []) : (derive ssl password salt).length = DIGEST_SIZE := by
  unfold derive pbkdf2Sha256 at *
  split at h
  · simp at h
  · next hfits =>
    rw [if_neg hfits]
    cases hd : ssl.PBKDF2 password salt ITERATIONS DIGEST_SIZE with
    | none => simp [hd] at h
    | some digest => exact ssl.PBKDF2_length _ _ _ _ _ hd

/-- A stored hash is four fields, the last two the salt and the digest in hex. -/
theorem hash_eq (h : hash ssl password salt ≠ []) : salt.length = 16 ∧ derive ssl password salt ≠ [] ∧
    hash ssl password salt = [chr '$'].intercalate
      [lit "pbkdf2-sha256", decimal ITERATIONS, toHex salt, toHex (derive ssl password salt)] := by
  unfold hash at *
  dsimp only at *
  split at h
  · simp at h
  · next hsalt =>
    split at h
    · simp at h
    · next hdigest =>
      rw [if_neg hsalt, if_neg hdigest]
      refine ⟨by simpa using hsalt, by simpa [derive] using hdigest, ?_⟩
      simp [List.intercalate_cons_cons, lit, chr, derive]

/-- `verify` reads back what `hash` wrote, so it compares the two derived keys. -/
theorem verify_hash (h : hash ssl secret salt ≠ []) :
    verify ssl password (hash ssl secret salt) = true ↔ derive ssl password salt = derive ssl secret salt := by
  obtain ⟨hsalt, hdigest, heq⟩ := hash_eq h
  have hsplit : split (hash ssl secret salt) (chr '$') =
      [lit "pbkdf2-sha256", decimal ITERATIONS, toHex salt, toHex (derive ssl secret salt)] := by
    rw [split_eq, Delimited.splitOn_eq_iff]
    refine ⟨by simp, ?_, heq⟩
    simp only [List.mem_cons, List.not_mem_nil, or_false, forall_eq_or_imp, forall_eq]
    exact ⟨by decide, not_mem_decimal (by decide) _, not_mem_toHex (by decide) _, not_mem_toHex (by decide) _⟩
  have hrounds : parseU64 (decimal ITERATIONS) = some 20000 := by decide +kernel
  unfold verify
  simp only [hsplit, hrounds, fromHex_toHex]
  rw [if_neg (by simp [hsalt, length_derive hdigest])]
  exact beq_iff_eq

end Password

namespace TrackerState

open Password

/-- `create_user` for `user` succeeded with this password. -/
def UserCreated (user password : Bytes) (e : TrackerEvent) : Prop :=
  Succeeded e [lit "create_user", user, password] (lit "OK user created")

/-- `login` of `user` succeeded. -/
def LoggedIn (user : Bytes) (e : TrackerEvent) : Prop :=
  ∃ password, Succeeded e [lit "login", user, password] (lit "OK logged in")

variable {ssl : OpenSsl}

/-- The dispatch of a command that is in the table, with its arity. -/
theorem step_of_lookup {s : TrackerState} {c : Call} {name : Bytes} {args : List Bytes} {spec : Command}
    (hw : words c.commandLine = name :: args) (hspec : (commands ssl).lookup name = some spec)
    (hlogin : spec.needsLogin = true → s.userOf c.session ≠ [])
    (harity : spec.arity ≥ 0 → (args.length : Int) = spec.arity) :
    step ssl s c = spec.handler s (requestOf s c args) := by
  have h₁ : (spec.needsLogin && (s.userOf c.session).isEmpty) = false := by
    cases hn : spec.needsLogin with
    | false => rfl
    | true => simpa using hlogin hn
  have h₂ : ¬ (spec.arity ≥ 0 && decide ((args.length : Int) ≠ spec.arity)) = true := by
    simp only [Bool.and_eq_true, decide_eq_true_eq, not_and, not_not]
    exact harity
  simp only [step, apply, hw, hspec, h₁, Bool.false_eq_true, if_false, if_neg h₂]
  rfl

section Accounts

variable {s s' : TrackerState} {c : Call} {result : CommandResult} {user : Bytes}

/-- What one command does to one account. -/
theorem Effect.account (e : Effect ssl s c s' result) (user : Bytes) :
    (∃ password, UserCreated user password ⟨s, c, result, s'⟩ ∧ s.users.find user = none ∧
      hash ssl password c.context.salt ≠ [] ∧ s'.users.find user = some (hash ssl password c.context.salt)) ∨
    (∀ password, ¬ UserCreated user password ⟨s, c, result, s'⟩) ∧ s'.users.find user = s.users.find user := by
  have hother : ∀ {name : Bytes} {args : List Bytes}, words c.commandLine = name :: args → name ≠ lit "create_user" →
      ∀ password, ¬ UserCreated user password ⟨s, c, result, s'⟩ := by
    intro name args hw hne password h
    exact hne (List.cons.inj (Succeeded.eq h hw)).1
  cases e with
  | refused text herr =>
    refine Or.inr ⟨fun password h => ?_, rfl⟩
    obtain rfl : text = lit "OK user created" := h.2
    exact absurd herr (by decide)
  | createUser name secret hwords hnew hstored =>
    by_cases hu : user = name
    · subst hu
      exact Or.inl ⟨secret, ⟨hwords, rfl⟩, hnew, hstored, by simp⟩
    · refine Or.inr ⟨fun password h => hu ?_, by simp [hu]⟩
      have := Succeeded.eq h hwords
      simp only [List.cons.injEq, true_and] at this
      exact this.1.symm
  | listed text hwords =>
    obtain ⟨args, hw | hw | hw⟩ := hwords <;> exact Or.inr ⟨hother hw (by decide), rfl⟩
  | downloadFile name hexFile fileName group file accesses hwords => exact Or.inr ⟨hother hwords (by decide), rfl⟩
  | _ =>
    -- The other replies are fixed texts, and none is that of `create_user`.
    refine Or.inr ⟨fun password h => ?_, rfl⟩
    have hreply : lit _ = lit "OK user created" := h.2
    exact absurd hreply (by decide)

/-- The history accounts for what is stored about `user`. -/
structure Account (ssl : OpenSsl) (user : Bytes) (past : List TrackerEvent) (s : TrackerState) : Prop where
  created : ∀ e ∈ past, ∀ password, UserCreated user password e → hash ssl password e.input.context.salt ≠ [] ∧
    s.users.find user = some (hash ssl password e.input.context.salt)
  stored : ∀ stored, s.users.find user = some stored → ∃ e ∈ past, ∃ password, UserCreated user password e
  once : past.Pairwise (fun e f => ∀ p q, UserCreated user p e → ¬ UserCreated user q f)

theorem account (ssl : OpenSsl) (user : Bytes) (calls : List Call) :
    Account ssl user (Machine.events (step ssl) empty calls) (Machine.run (step ssl) empty calls) := by
  refine Machine.history ⟨by simp, by simp [empty], List.Pairwise.nil⟩ (fun past s c _ h => ?_) calls
  rcases (@apply_effect ssl s c).account user with ⟨password, hcreated, hnew, husable, hstored⟩ | ⟨hnot, hsame⟩
  · have hnone : ∀ e ∈ past, ∀ p, ¬ UserCreated user p e := by
      intro e he p hp
      have := (h.created e he p hp).2
      rw [hnew] at this
      simp at this
    refine ⟨fun e he p hp => ?_, fun _ _ => ⟨Machine.event (step ssl) s c, by simp, password, hcreated⟩, ?_⟩
    · rcases List.mem_append.mp he with he | he
      · exact absurd hp (hnone e he p)
      · obtain rfl := List.mem_singleton.mp he
        have hsame : p = password := by simpa using (Succeeded.eq hp hcreated.1).symm
        rw [hsame]
        exact ⟨husable, hstored⟩
    · rw [List.pairwise_append]
      refine ⟨h.once, List.pairwise_singleton _ _, fun e he f _ p q hp => absurd hp (hnone e he p)⟩
  · refine ⟨fun e he p hp => ?_, fun stored hstored => ?_, ?_⟩
    · rcases List.mem_append.mp he with he | he
      · rw [hsame]
        exact h.created e he p hp
      · obtain rfl := List.mem_singleton.mp he
        exact absurd hp (hnot p)
    · rw [hsame] at hstored
      obtain ⟨e, he, p, hp⟩ := h.stored stored hstored
      exact ⟨e, List.mem_append_left _ he, p, hp⟩
    · rw [List.pairwise_append]
      refine ⟨h.once, List.pairwise_singleton _ _, fun e _ f hf p q _ hq => ?_⟩
      obtain rfl := List.mem_singleton.mp hf
      exact hnot q hq

/-- What a login under an unbound session is answered. -/
theorem login_response {password : Bytes} (hw : words c.commandLine = [lit "login", user, password])
    (hout : s.sessions.find c.session = none)
    (hdraw : c.session = 0 → c.context.newSession ≠ 0 ∧ s.sessions.find c.context.newSession = none) :
    ((step ssl s c).2.response = lit "OK logged in" ↔
      ∃ stored, s.users.find user = some stored ∧ verify ssl password stored = true) ∧
    ((step ssl s c).2.response = lit "OK logged in" →
      (step ssl s c).1.sessions.find (step ssl s c).2.session = some user) := by
  have hnobody : s.userOf c.session = [] := by simp [userOf, hout]
  have hdraw' : ¬ (decide (c.session = 0) && (decide (c.context.newSession = 0) ||
      s.sessions.contains c.context.newSession)) = true := by
    by_cases hz : c.session = 0
    · obtain ⟨hne, hfree⟩ := hdraw hz
      simp [hne, OrderedMap.contains, hfree]
    · simp [hz]
  have hspec : (commands ssl).lookup (lit "login") = some ⟨login ssl, false, 2, lit "login <user> <password>"⟩ := rfl
  have hstep : step ssl s c = login ssl s (requestOf s c [user, password]) :=
    step_of_lookup hw hspec (by simp) (by simp)
  have hrefused : ∀ text : Bytes, step ssl s c = (s, (requestOf s c [user, password]).reply text) →
      text ≠ lit "OK logged in" → (step ssl s c).2.response ≠ lit "OK logged in" := by
    intro text ht hne
    rw [ht]
    exact hne
  cases hf : s.users.find user with
  | none =>
    have hno := hrefused (lit "ERR no such user") (by rw [hstep]; simp [login, hnobody, hf]) (by decide)
    simp [hno]
  | some stored =>
    cases hv : verify ssl password stored with
    | false =>
      have hno := hrefused (lit "ERR invalid password") (by rw [hstep]; simp [login, hnobody, hf, hv]) (by decide)
      simp [hno, hv]
    | true =>
      have hyes : step ssl s c =
          ({ s with sessions := s.sessions.insert (if c.session = 0 then c.context.newSession else c.session) user },
            ⟨lit "OK logged in", if c.session = 0 then c.context.newSession else c.session⟩) := by
        rw [hstep]
        simp only [login, requestOf_user, hnobody, requestOf_arg_zero, hf, requestOf_arg_one, hv, List.isEmpty_nil,
          Bool.not_true, Bool.false_eq_true, if_false, requestOf_session, requestOf_context]
        exact if_neg hdraw'
      simp [hyes, hv]

end Accounts

/-- Under an unbound session a login succeeds exactly with a password that derives the same key as the one
the account was created with, and then binds the session it answers; an account is created once. -/
theorem login_authenticates (ssl : OpenSsl) (calls : List Call) (c : Call) (user password : Bytes)
    (hw : words c.commandLine = [lit "login", user, password])
    (hout : (Machine.run (step ssl) empty calls).sessions.find c.session = none)
    (hdraw : c.session = 0 → c.context.newSession ≠ 0 ∧
      (Machine.run (step ssl) empty calls).sessions.find c.context.newSession = none) :
    ((step ssl (Machine.run (step ssl) empty calls) c).2.response = lit "OK logged in" ↔
      ∃ e ∈ Machine.events (step ssl) empty calls, ∃ secret, UserCreated user secret e ∧
        derive ssl password e.input.context.salt = derive ssl secret e.input.context.salt) ∧
    ((step ssl (Machine.run (step ssl) empty calls) c).2.response = lit "OK logged in" →
      (step ssl (Machine.run (step ssl) empty calls) c).1.sessions.find
        (step ssl (Machine.run (step ssl) empty calls) c).2.session = some user) ∧
    (Machine.events (step ssl) empty calls).Pairwise
      (fun e f => ∀ p q, UserCreated user p e → ¬ UserCreated user q f) := by
  have ha := account ssl user calls
  obtain ⟨hanswer, hbound⟩ := @login_response ssl _ c user password hw hout hdraw
  refine ⟨?_, hbound, ha.once⟩
  rw [hanswer]
  constructor
  · rintro ⟨stored, hstored, hverify⟩
    obtain ⟨e, he, secret, hcreated⟩ := ha.stored stored hstored
    obtain ⟨husable, hfound⟩ := ha.created e he secret hcreated
    obtain rfl := Option.some.inj (hstored.symm.trans hfound)
    exact ⟨e, he, secret, hcreated, (verify_hash husable).mp hverify⟩
  · rintro ⟨e, he, secret, hcreated, hsame⟩
    obtain ⟨husable, hfound⟩ := ha.created e he secret hcreated
    exact ⟨_, hfound, (verify_hash husable).mpr hsame⟩

/-- Bob logs in with his own password after the accounts of `aliceAndBob` have been created. -/
theorem login_authenticates_bob :
    (step recording.replay (Machine.run (step recording.replay) empty (aliceAndBob.take 3))
      ⟨0, lit "login bob banana", ⟨[], 9, 1000⟩⟩).2.response = lit "OK logged in" :=
  (login_authenticates recording.replay (aliceAndBob.take 3) ⟨0, lit "login bob banana", ⟨[], 9, 1000⟩⟩ (lit "bob")
    (lit "banana") (by decide +kernel) (by decide +kernel) (fun _ => by decide +kernel)).1.mpr
    ⟨Machine.event (step recording.replay) (Machine.run (step recording.replay) empty (aliceAndBob.take 1))
      ⟨0, lit "create_user bob banana", ⟨saltOfBob, 0, 1000⟩⟩,
      by simp [aliceAndBob, Machine.events, Machine.event],
      lit "banana", ⟨by decide +kernel, by decide +kernel⟩, rfl⟩

section Sessions

variable {s s' : TrackerState} {c : Call} {result : CommandResult} {k : UInt64} {user : Bytes}

/-- A login that bound the session `k`, which was free, to `user`. -/
def Binds (k : UInt64) (user : Bytes) (e : TrackerEvent) : Prop :=
  LoggedIn user e ∧ e.output.session = k ∧ e.before.sessions.find k = none

/-- A command binds no session but the one its login answers: the context's, or the number it was sent with. -/
theorem Effect.session (e : Effect ssl s c s' result) (h : s.Consistent) (hk : s'.sessions.find k = some user) :
    s.sessions.find k = some user ∨ k ≠ 0 ∧ Binds k user ⟨s, c, result, s'⟩ ∧
      (c.session = 0 ∧ k = c.context.newSession ∨ c.session = k) := by
  cases e with
  | login name secret stored session hwords hout huser hverify hsession hzero hfresh =>
    rw [OrderedMap.find_insert] at hk
    split at hk
    · next heq =>
      obtain rfl := Option.some.inj hk
      obtain rfl := heq
      refine Or.inr ⟨hzero, ⟨⟨secret, hwords, rfl⟩, rfl, ?_⟩, ?_⟩
      · by_cases hz : c.session = 0
        · exact hfresh hz
        · rw [hsession, if_neg hz]
          exact h.unbound hout
      · by_cases hz : c.session = 0
        · exact Or.inl ⟨hz, by rw [hsession, if_pos hz]⟩
        · exact Or.inr (by rw [hsession, if_neg hz])
    · exact Or.inl hk
  | logout hwords huser =>
    rw [OrderedMap.find_erase] at hk
    split at hk
    · simp at hk
    · exact Or.inl hk
  | _ => exact Or.inl hk

/-- A bound session goes back to the login that bound it; it has been bound ever since. -/
def Origin (k : UInt64) (user : Bytes) (past : List TrackerEvent) : Prop :=
  ∃ earlier e later, past = earlier ++ e :: later ∧ Binds k user e ∧
    (∀ f ∈ later, f.after.sessions.find k = some user) ∧
    (e.input.session = 0 ∧ k = e.input.context.newSession ∨ e.input.session = k)

theorem origin (ssl : OpenSsl) (calls : List Call) (k : UInt64) (user : Bytes)
    (hk : (Machine.run (step ssl) empty calls).sessions.find k = some user) :
    k ≠ 0 ∧ Origin k user (Machine.events (step ssl) empty calls) := by
  revert hk
  refine Machine.history (s := empty) (P := fun past s => s.sessions.find k = some user → k ≠ 0 ∧ Origin k user past)
    (by simp [empty]) (fun past s c hs ih hk => ?_) calls
  rcases (@apply_effect ssl s c).session (Reachable.consistent hs) hk with hk' | ⟨hzero, hbinds, hnumber⟩
  · obtain ⟨hzero, earlier, e, later, rfl, hbinds, hlater, hnumber⟩ := ih hk'
    refine ⟨hzero, earlier, e, later ++ [Machine.event (step ssl) s c], by simp, hbinds, fun f hf => ?_, hnumber⟩
    rcases List.mem_append.mp hf with hf | hf
    · exact hlater f hf
    · obtain rfl := List.mem_singleton.mp hf
      exact hk
  · exact ⟨hzero, past, Machine.event (step ssl) s c, [], rfl, hbinds, by simp, hnumber⟩

theorem newSession_fresh_lt (salt bytes : Bytes) (now : Int) :
    (ApplyContext.fresh salt bytes now).newSession.toNat < 2 ^ 63 := by
  simp only [ApplyContext.fresh, UInt64.toNat_and]
  exact lt_of_le_of_lt Nat.and_le_right (by decide)

/-- Every live session was bound by a login, either to the number the tracker drew for it, which has 63 bits, or to
the nonzero number the login itself was sent with. -/
theorem session_origin (ssl : OpenSsl) (calls : List Call)
    (hfresh : ∀ c ∈ calls, ∃ salt bytes now, c.context = .fresh salt bytes now) (k : UInt64) (user : Bytes)
    (hk : (Machine.run (step ssl) empty calls).sessions.find k = some user) :
    k ≠ 0 ∧ ∃ earlier e later, Machine.events (step ssl) empty calls = earlier ++ e :: later ∧ Binds k user e ∧
      (∀ f ∈ later, f.after.sessions.find k = some user) ∧
      (e.input.session = 0 ∧ k = e.input.context.newSession ∧ k.toNat < 2 ^ 63 ∨ e.input.session = k) := by
  obtain ⟨hzero, earlier, e, later, hsplit, hbinds, hlater, hnumber⟩ := origin ssl calls k user hk
  refine ⟨hzero, earlier, e, later, hsplit, hbinds, hlater, hnumber.imp_left ?_⟩
  rintro ⟨hz, rfl⟩
  obtain ⟨before, c, after, rfl, -, rfl, -⟩ := Machine.events_split hsplit
  obtain ⟨salt, bytes, now, hcontext⟩ := hfresh c (by simp)
  refine ⟨hz, rfl, ?_⟩
  change c.context.newSession.toNat < 2 ^ 63
  rw [hcontext]
  exact newSession_fresh_lt salt bytes now

/-- Alice logs in with a session number of her own making. -/
def chosenSession : List Call := [
  ⟨0, lit "create_user alice apple", .fresh saltOfAlice [1, 0, 0, 0, 0, 0, 0, 0] 1000⟩,
  ⟨0x8000000000000005, lit "login alice apple", .fresh saltOfBob [7, 0, 0, 0, 0, 0, 0, 0] 1000⟩]

theorem session_origin_chosen : ∃ e ∈ Machine.events (step recording.replay) empty chosenSession,
    Binds 0x8000000000000005 (lit "alice") e := by
  obtain ⟨-, earlier, e, later, hsplit, hbinds, -⟩ := session_origin recording.replay chosenSession
    (by simp [chosenSession]) 0x8000000000000005 (lit "alice") (by decide +kernel)
  exact ⟨e, by rw [hsplit]; simp, hbinds⟩

/-- The number is live although no context has it and it has 64 bits. -/
theorem session_chosen_by_client :
    (∀ c ∈ chosenSession, ∃ salt bytes now, c.context = .fresh salt bytes now) ∧
    (Machine.run (step recording.replay) empty chosenSession).sessions.find 0x8000000000000005 = some (lit "alice") ∧
    (∀ c ∈ chosenSession, c.context.newSession ≠ 0x8000000000000005) ∧
    ¬ (0x8000000000000005 : UInt64).toNat < 2 ^ 63 :=
  ⟨by simp [chosenSession], by decide +kernel, by decide +kernel, by decide⟩

end Sessions

end TrackerState

end TorrentAtlas
