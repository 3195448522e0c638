import TorrentAtlas.Accounts

/-!
# What a command does to other users

Accounts, session bindings and seeder registrations belong to users. A command
touches those of the user it runs as; the owner's `remove_member` touches one
other user's registrations in one group. A file goes with its last registration.
-/
namespace TorrentAtlas

/-- What `user` has registered for one file of the group. -/
def Group.registration (group : Group) (name user : Bytes) : Option Seeder :=
  (group.files.find name).bind (fun file => file.seeders.find user)

theorem Group.registration_removeSharesOf (group : Group) (user name v : Bytes) :
    (group.removeSharesOf user).registration name v = if v = user then none else group.registration name v := by
  simp only [Group.registration, Group.removeSharesOf, OrderedMap.find_filterMap]
  cases hf : group.files.find name with
  | none => simp
  | some file =>
    simp only [Option.bind_some]
    split
    · next hempty =>
      have hnone := (OrderedMap.isEmpty_iff _).mp hempty v
      rw [OrderedMap.find_erase] at hnone
      split at hnone
      · next he => simp [he]
      · next hne => simp [hne, hnone]
    · simp

namespace TrackerState

def registration (s : TrackerState) (g name user : Bytes) : Option Seeder :=
  (s.groups.find g).bind (fun group => group.registration name user)

/-- A file is listed in a group. -/
def Shared (s : TrackerState) (g name : Bytes) : Prop :=
  ∃ group file, s.groups.find g = some group ∧ group.files.find name = some file

section Views

variable {s : TrackerState} {g n name user : Bytes} {group : Group}

theorem registration_setGroup : (s.setGroup n group).registration g name user =
    if g = n then group.registration name user else s.registration g name user := by
  by_cases h : g = n <;> simp [registration, setGroup, h]

theorem registration_of_find (h : s.groups.find g = some group) :
    s.registration g name user = group.registration name user := by
  simp [registration, h]

/-- Replacing a group changes a user's registrations only if it does so within the group. -/
theorem registration_setGroup_same {old : Group} (hold : s.groups.find n = some old)
    (h : ∀ name, group.registration name user = old.registration name user) :
    (s.setGroup n group).registration g name user = s.registration g name user := by
  rw [registration_setGroup]
  split
  · next hg => rw [hg, registration_of_find hold, h]
  · rfl

/-- In a consistent state a file is listed as long as somebody seeds it. -/
theorem Consistent.shared_iff (h : s.Consistent) : Shared s g name ↔ ∃ user, s.registration g name user ≠ none := by
  constructor
  · rintro ⟨group, file, hgroup, hfile⟩
    obtain ⟨user, seeder, hseeder⟩ := ((h.group g group hgroup).file name file hfile).seeded
    exact ⟨user, by simp [registration, hgroup, Group.registration, hfile, hseeder]⟩
  · rintro ⟨user, hne⟩
    cases hgroup : s.groups.find g with
    | none => simp [registration, hgroup] at hne
    | some group =>
      cases hfile : group.files.find name with
      | none => simp [registration, hgroup, Group.registration, hfile] at hne
      | some file => exact ⟨group, file, hgroup, hfile⟩

end Views

section Registrations

variable {ssl : OpenSsl} {s s' : TrackerState} {c : Call} {result : CommandResult}

/-- An owner removed `user` from `g`: exactly that user's registrations in that group are gone. -/
def Expelled (g user : Bytes) (e : TrackerEvent) : Prop :=
  Removed g user e ∧ (∃ owner, By e owner ∧ Owner e.before g owner ∧ user ≠ owner) ∧
    ∀ g' name v, e.after.registration g' name v =
      if g' = g ∧ v = user then none else e.before.registration g' name v

/-- Only the caller's registrations change. -/
def Private (e : TrackerEvent) : Prop :=
  (∀ g user, ¬ Removed g user e) ∧
    ∀ v, ¬ By e v → ∀ g name, e.after.registration g name v = e.before.registration g name v

theorem private_of_quiet {e : TrackerEvent} (hr : ∀ g user, ¬ Removed g user e)
    (h : ∀ g name v, e.after.registration g name v = e.before.registration g name v) : Private e :=
  ⟨hr, fun v _ g name => h g name v⟩

/-- Every command either changes nobody's registrations but the caller's or expels a member. -/
theorem Effect.registrations (e : Effect ssl s c s' result) (h : s.Consistent) :
    Private ⟨s, c, result, s'⟩ ∨ ∃ g user, Expelled g user ⟨s, c, result, s'⟩ := by
  have hother : ∀ {name : Bytes} {args : List Bytes}, words c.commandLine = name :: args →
      name ≠ lit "remove_member" → ∀ g user, ¬ Removed g user ⟨s, c, result, s'⟩ := by
    intro name args hw hne g user hr
    exact hne (List.cons.inj (Succeeded.eq hr hw)).1
  have hcaller : ∀ {v : Bytes}, s.userOf c.session ≠ [] → s.sessions.find c.session ≠ some v →
      v ≠ s.userOf c.session := by
    intro v huser hby hv
    exact hby (hv ▸ userOf_eq_some huser)
  cases e with
  | refused text herr => exact Or.inl (private_of_quiet (quiet_of_error herr).removed fun _ _ _ => rfl)
  | createUser name secret hwords =>
    exact Or.inl (private_of_quiet (hother hwords (by decide)) fun _ _ _ => rfl)
  | login name secret stored session hwords =>
    exact Or.inl (private_of_quiet (hother hwords (by decide)) fun _ _ _ => rfl)
  | listed text hwords =>
    obtain ⟨args, hw | hw | hw⟩ := hwords <;>
      exact Or.inl (private_of_quiet (hother hw (by decide)) fun _ _ _ => rfl)
  | downloadFile name hexFile fileName group file accesses hwords =>
    exact Or.inl (private_of_quiet (hother hwords (by decide)) fun _ _ _ => rfl)
  | logout hwords huser =>
    refine Or.inl ⟨hother hwords (by decide), fun v hby g name => ?_⟩
    have hv := hcaller huser hby
    simp only [registration, OrderedMap.find_mapValues]
    cases s.groups.find g with
    | none => rfl
    | some group => simp [Group.registration_removeSharesOf, hv]
  | createGroup name hwords huser hnew =>
    refine Or.inl (private_of_quiet (hother hwords (by decide)) fun g file v => ?_)
    dsimp only
    rw [registration_setGroup]
    split
    · next hg => simp [hg, registration, hnew, Group.registration]
    · rfl
  | joinGroup name group hwords huser hgroup =>
    exact Or.inl (private_of_quiet (hother hwords (by decide)) fun g file v =>
      registration_setGroup_same hgroup fun _ => rfl)
  | acceptRequest name user group hwords huser hgroup =>
    exact Or.inl (private_of_quiet (hother hwords (by decide)) fun g file v =>
      registration_setGroup_same hgroup fun _ => rfl)
  | leaveGroup name group hwords huser hgroup howner hmember =>
    refine Or.inl ⟨hother hwords (by decide), fun v hby g file => registration_setGroup_same hgroup fun n => ?_⟩
    rw [Group.registration_removeSharesOf, if_neg (hcaller huser hby)]
    rfl
  | removeMember name user group hwords huser hgroup howner hne hmember =>
    refine Or.inr ⟨name, user, ⟨hwords, rfl⟩, ⟨group.owner, ?_, ⟨group, hgroup, rfl⟩, hne⟩, fun g file v => ?_⟩
    · exact howner ▸ userOf_eq_some huser
    · dsimp only
      rw [registration_setGroup]
      by_cases hg : g = name
      · rw [if_pos hg, Group.registration_removeSharesOf, hg, registration_of_find hgroup]
        simp only [true_and]
        rfl
      · simp [hg]
  | uploadFile name args group upload file hwords huser hgroup hmember hupload hfile =>
    refine Or.inl ⟨hother hwords (by decide), fun v hby g n => registration_setGroup_same hgroup fun n => ?_⟩
    have hv := hcaller huser hby
    obtain ⟨-, hseeders, -⟩ := shareFile_eq_some hfile
      (fun old ho => ((h.group name group hgroup).file upload.name old ho).valid)
    by_cases hn : n = upload.name
    · subst hn
      simp only [Group.registration, OrderedMap.find_insert, if_true, Option.bind_some, hseeders, if_neg hv]
      cases group.files.find upload.name <;> rfl
    · simp [Group.registration, hn]
  | stopShare name hexFile fileName group file hwords huser hgroup hname hfile hseeder =>
    refine Or.inl ⟨hother hwords (by decide), fun v hby g n => registration_setGroup_same hgroup fun n => ?_⟩
    have hv := hcaller huser hby
    by_cases hn : n = fileName
    · subst hn
      simp only [Group.registration, hfile, Option.bind_some]
      split
      · next hempty =>
        have hnone := (OrderedMap.isEmpty_iff _).mp hempty v
        rw [OrderedMap.find_erase, if_neg hv] at hnone
        simp [hnone]
      · simp [hv]
    · simp only [Group.registration]
      split <;> simp [hn]

/-- One command changes the registrations of at most one user. -/
theorem registrations_of_one {e : TrackerEvent} (h : Private e ∨ ∃ g user, Expelled g user e)
    {g name g' name' v w : Bytes}
    (hv : e.after.registration g name v ≠ e.before.registration g name v)
    (hw : e.after.registration g' name' w ≠ e.before.registration g' name' w) : v = w := by
  rcases h with ⟨-, hkeep⟩ | ⟨g₀, user, -, -, hkeep⟩
  · by_cases hbv : By e v
    · by_cases hbw : By e w
      · exact Option.some.inj (hbv.symm.trans hbw)
      · exact absurd (hkeep w hbw g' name') hw
    · exact absurd (hkeep v hbv g name) hv
  · have huser : ∀ {g name v : Bytes}, e.after.registration g name v ≠ e.before.registration g name v → v = user := by
      intro g name v hne
      rw [hkeep] at hne
      by_contra hvu
      simp [hvu] at hne
    rw [huser hv, huser hw]

/-- A command changes no binding of other users, except that a login adds the one it answers. -/
theorem Effect.bindings (e : Effect ssl s c s' result) (h : s.Consistent) {v : Bytes}
    (hv : s.sessions.find c.session ≠ some v) :
    LoggedIn v ⟨s, c, result, s'⟩ ∧ s.sessions.find result.session = none ∧
      (∀ k, s'.sessions.find k = some v ↔ k = result.session ∨ s.sessions.find k = some v) ∨
    ¬ LoggedIn v ⟨s, c, result, s'⟩ ∧ ∀ k, s'.sessions.find k = some v ↔ s.sessions.find k = some v := by
  have hother : ∀ {name : Bytes} {args : List Bytes}, words c.commandLine = name :: args → name ≠ lit "login" →
      ¬ LoggedIn v ⟨s, c, result, s'⟩ := by
    rintro name args hw hne ⟨password, hlogin⟩
    exact hne (List.cons.inj (Succeeded.eq hlogin hw)).1
  cases e with
  | refused text herr =>
    refine Or.inr ⟨?_, fun k => Iff.rfl⟩
    rintro ⟨password, -, hreply⟩
    obtain rfl : text = lit "OK logged in" := hreply
    exact absurd herr (by decide)
  | login name secret stored session hwords hout huser hverify hsession hzero hfresh =>
    have hfree : s.sessions.find session = none := by
      by_cases hz : c.session = 0
      · exact hfresh hz
      · rw [hsession, if_neg hz]
        exact h.unbound hout
    by_cases hvn : v = name
    · subst hvn
      refine Or.inl ⟨⟨secret, hwords, rfl⟩, hfree, fun k => ?_⟩
      by_cases hk : k = session <;> simp [hk]
    · refine Or.inr ⟨?_, fun k => ?_⟩
      · rintro ⟨password, hlogin⟩
        have := Succeeded.eq hlogin hwords
        simp only [List.cons.injEq, true_and] at this
        exact hvn this.1.symm
      · by_cases hk : k = session
        · simp [hk, hfree, Ne.symm hvn]
        · simp [hk]
  | logout hwords huser =>
    refine Or.inr ⟨hother hwords (by decide), fun k => ?_⟩
    by_cases hk : k = c.session
    · simp [hk, hv]
    · simp [hk]
  | listed text hwords =>
    obtain ⟨args, hw | hw | hw⟩ := hwords <;> exact Or.inr ⟨hother hw (by decide), fun k => Iff.rfl⟩
  | downloadFile name hexFile fileName group file accesses hwords =>
    exact Or.inr ⟨hother hwords (by decide), fun k => Iff.rfl⟩
  | _ =>
    refine Or.inr ⟨?_, fun k => Iff.rfl⟩
    rintro ⟨password, -, hanswer⟩
    have hreply : lit _ = lit "OK logged in" := hanswer
    exact absurd hreply (by decide)

/-- A file disappears exactly when the registration of its only seeder is removed. -/
theorem disappears_iff {e : TrackerEvent} (hbefore : e.before.Consistent) (hafter : e.after.Consistent)
    (h : Private e ∨ ∃ g user, Expelled g user e) (g name : Bytes) :
    Shared e.before g name ∧ ¬ Shared e.after g name ↔
      ∃ user, (∀ v, e.before.registration g name v ≠ none ↔ v = user) ∧ e.after.registration g name user = none := by
  rw [hbefore.shared_iff, hafter.shared_iff]
  constructor
  · rintro ⟨⟨user, huser⟩, hnone⟩
    simp only [not_exists, ne_eq, not_not] at hnone
    refine ⟨user, fun v => ⟨fun hv => ?_, fun hv => hv ▸ huser⟩, hnone user⟩
    refine @registrations_of_one e h g name g name v user ?_ ?_
    · rw [hnone v]
      exact Ne.symm hv
    · rw [hnone user]
      exact Ne.symm huser
  · rintro ⟨user, honly, hgone⟩
    have huser : e.before.registration g name user ≠ none := (honly user).mpr rfl
    refine ⟨⟨user, huser⟩, ?_⟩
    rintro ⟨v, hv⟩
    have hvu : v ≠ user := by
      rintro rfl
      exact hv hgone
    have hv' : e.before.registration g name v = none := not_not.mp fun hne => hvu ((honly v).mp hne)
    refine hvu (@registrations_of_one e h g name g name v user ?_ ?_)
    · rw [hv']
      exact hv
    · rw [hgone]
      exact Ne.symm huser

end Registrations

/-- A command leaves the account, the sessions and the registrations of every other user alone, but for the account
that `create_user` adds, the binding that `login` adds and the member that an owner removes; and files go with
their last registration. -/
theorem user_isolation (ssl : OpenSsl) (s : TrackerState) (hs : Reachable ssl s) (c : Call) (v : Bytes)
    (hv : s.sessions.find c.session ≠ some v) :
    ((∃ password, UserCreated v password (Machine.event (step ssl) s c)) ∧ s.users.find v = none ∧
        (∃ stored, (step ssl s c).1.users.find v = some stored) ∨
      (∀ password, ¬ UserCreated v password (Machine.event (step ssl) s c)) ∧
        (step ssl s c).1.users.find v = s.users.find v) ∧
    (LoggedIn v (Machine.event (step ssl) s c) ∧ s.sessions.find (step ssl s c).2.session = none ∧
        (∀ k, (step ssl s c).1.sessions.find k = some v ↔
          k = (step ssl s c).2.session ∨ s.sessions.find k = some v) ∨
      ¬ LoggedIn v (Machine.event (step ssl) s c) ∧
        ∀ k, (step ssl s c).1.sessions.find k = some v ↔ s.sessions.find k = some v) ∧
    ((∃ g, Removed g v (Machine.event (step ssl) s c) ∧
        (∃ owner, s.sessions.find c.session = some owner ∧ Owner s g owner) ∧
        ∀ g' name, (step ssl s c).1.registration g' name v = if g' = g then none else s.registration g' name v) ∨
      (∀ g, ¬ Removed g v (Machine.event (step ssl) s c)) ∧
        ∀ g name, (step ssl s c).1.registration g name v = s.registration g name v) ∧
    ∀ g name, Shared s g name ∧ ¬ Shared (step ssl s c).1 g name ↔
      ∃ user, (∀ w, s.registration g name w ≠ none ↔ w = user) ∧ (step ssl s c).1.registration g name user = none := by
  have hc := Reachable.consistent hs
  have heffect := @apply_effect ssl s c
  have hregistrations := heffect.registrations hc
  refine ⟨?_, heffect.bindings hc hv, ?_,
    disappears_iff (e := Machine.event (step ssl) s c) hc (step_consistent s c hc) hregistrations⟩
  · rcases heffect.account v with ⟨password, hcreated, hnew, -, hstored⟩ | hsame
    · exact Or.inl ⟨⟨password, hcreated⟩, hnew, _, hstored⟩
    · exact Or.inr hsame
  · rcases hregistrations with ⟨hno, hkeep⟩ | ⟨g, user, hremoved, ⟨owner, hby, howner, -⟩, hgone⟩
    · exact Or.inr ⟨fun g => hno g v, hkeep v hv⟩
    · by_cases hvu : v = user
      · subst hvu
        refine Or.inl ⟨g, hremoved, ⟨owner, hby, howner⟩, fun g' name => ?_⟩
        simpa using hgone g' name v
      · refine Or.inr ⟨fun g' hr => hvu ?_, fun g' name => ?_⟩
        · have := Succeeded.eq hr hremoved.1
          simp only [List.cons.injEq, true_and, and_true] at this
          exact this.2.symm
        · simpa [hvu] using hgone g' name v

/-- When Bob leaves, what Alice has registered stays. -/
theorem user_isolation_alice :
    (Machine.run (step recording.replay) empty aliceAndBob).registration (lit "g") (lit "f") (lit "alice") =
      some ⟨⟨lit "10.0.0.1", 6881⟩, peerKeyOfAlice⟩ ∧
    (step recording.replay (Machine.run (step recording.replay) empty aliceAndBob)
      ⟨9, lit "leave_group g", ⟨[], 0, 1100⟩⟩).1.registration (lit "g") (lit "f") (lit "alice") =
      some ⟨⟨lit "10.0.0.1", 6881⟩, peerKeyOfAlice⟩ := by
  have hbefore : (Machine.run (step recording.replay) empty aliceAndBob).registration (lit "g") (lit "f") (lit "alice") =
      some ⟨⟨lit "10.0.0.1", 6881⟩, peerKeyOfAlice⟩ := by decide +kernel
  refine ⟨hbefore, ?_⟩
  rcases (user_isolation recording.replay _ ⟨aliceAndBob, rfl⟩ ⟨9, lit "leave_group g", ⟨[], 0, 1100⟩⟩ (lit "alice")
    (by decide +kernel)).2.2.1 with ⟨g, hremoved, -⟩ | ⟨-, hsame⟩
  · exact absurd hremoved.2 (by decide +kernel)
  · rw [hsame, hbefore]

end TrackerState

end TorrentAtlas
