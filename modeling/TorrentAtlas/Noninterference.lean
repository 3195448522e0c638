import TorrentAtlas.Accounts

/-!
# What an outsider learns about a group

Two tracker states are alike for `u` when they differ only in the files of a group
`g` and in which other users are in it or wait to join. While `u` is not a member,
no command of `u` tells them apart. An outsider owns nothing in the group and
seeds none of its files, so every branch that looks at them is closed.
-/
namespace TorrentAtlas.TrackerState

open Encoding Crypto

/-- Two versions of a group with the same owner and the same standing of `u`. -/
structure GroupAlike (u : Bytes) (a b : Group) : Prop where
  owner : a.owner = b.owner
  member : a.members.contains u = b.members.contains u
  pending : a.pending.contains u = b.pending.contains u

/-- Equal states, except for the files of `g` and the standing of users other than `u` in `g`. -/
structure Alike (g u : Bytes) (s t : TrackerState) : Prop where
  users : s.users = t.users
  sessions : s.sessions = t.sessions
  other : ∀ n, n ≠ g → s.groups.find n = t.groups.find n
  group : s.groups.find g = none ∧ t.groups.find g = none ∨
    ∃ a b, s.groups.find g = some a ∧ t.groups.find g = some b ∧ GroupAlike u a b

section Alike

variable {g u n : Bytes} {s t : TrackerState}

theorem Alike.member_iff (h : Alike g u s t) : Member s g u ↔ Member t g u := by
  rcases h.group with ⟨hs, ht⟩ | ⟨a, b, hs, ht, hab⟩
  · simp [Member, hs, ht]
  · rw [member_of_find hs, member_of_find ht, hab.member]

theorem Alike.contains (h : Alike g u s t) (n : Bytes) : s.groups.contains n = t.groups.contains n := by
  by_cases hn : n = g
  · rcases h.group with ⟨hs, ht⟩ | ⟨a, b, hs, ht, -⟩ <;> simp [OrderedMap.contains, hn, hs, ht]
  · simp [OrderedMap.contains, h.other n hn]

theorem Alike.userOf (h : Alike g u s t) (session : UInt64) : s.userOf session = t.userOf session := by
  simp [TrackerState.userOf, h.sessions]

theorem Alike.withUsers (h : Alike g u s t) (users : OrderedMap Bytes Bytes) :
    Alike g u { s with users } { t with users } :=
  ⟨rfl, h.sessions, h.other, h.group⟩

theorem Alike.withSessions (h : Alike g u s t) (sessions : OrderedMap UInt64 Bytes) :
    Alike g u { s with sessions } { t with sessions } :=
  ⟨h.users, rfl, h.other, h.group⟩

/-- The same change to any other group. -/
theorem Alike.setOther (h : Alike g u s t) (hn : n ≠ g) (group : Group) :
    Alike g u (s.setGroup n group) (t.setGroup n group) where
  users := h.users
  sessions := h.sessions
  other n' hn' := by
    by_cases he : n' = n
    · simp [setGroup, he]
    · simp [setGroup, he, h.other n' hn']
  group := by simpa [setGroup, Ne.symm hn] using h.group

/-- Alike changes to the group itself. -/
theorem Alike.setGroup (h : Alike g u s t) {a b : Group} (hab : GroupAlike u a b) :
    Alike g u (s.setGroup g a) (t.setGroup g b) where
  users := h.users
  sessions := h.sessions
  other n hn := by simp [TrackerState.setGroup, hn, h.other n hn]
  group := Or.inr ⟨a, b, by simp [TrackerState.setGroup], by simp [TrackerState.setGroup], hab⟩

/-- A sweep over all groups that leaves owners and members alone. -/
theorem Alike.removeShares (h : Alike g u s t) (user : Bytes) :
    Alike g u { s with groups := s.groups.mapValues (fun group => group.removeSharesOf user) }
      { t with groups := t.groups.mapValues (fun group => group.removeSharesOf user) } where
  users := h.users
  sessions := h.sessions
  other n hn := by simp [h.other n hn]
  group := by
    rcases h.group with ⟨hs, ht⟩ | ⟨a, b, hs, ht, hab⟩
    · exact Or.inl (by simp [hs, ht])
    · exact Or.inr ⟨a.removeSharesOf user, b.removeSharesOf user, by simp [hs], by simp [ht],
        hab.owner, hab.member, hab.pending⟩

end Alike

/-- The same answer, and states that stay alike. -/
def Same (g u : Bytes) (x y : TrackerState × CommandResult) : Prop := x.2 = y.2 ∧ Alike g u x.1 y.1

/-- What a consistent group says about a user outside of it. -/
structure Outsider (u : Bytes) (group : Group) : Prop where
  member : group.members.contains u = false
  owner : group.owner ≠ u
  seeder : ∀ name file, group.files.find name = some file → file.seeders.contains u = false

theorem outsider_of_consistent {registered live : Bytes → Prop} {u : Bytes} {group : Group}
    (h : GroupConsistent registered live group) (hout : group.members.contains u = false) : Outsider u group where
  member := hout
  owner hu := by
    have := h.owner_member
    rw [hu, hout] at this
    simp at this
  seeder name file hfile := by
    cases hseeder : file.seeders.find u with
    | none => simp [OrderedMap.contains, hseeder]
    | some seeder =>
      have := ((h.file name file hfile).seeder u seeder hseeder).member
      rw [hout] at this
      simp at this

section Handlers

variable {g : Bytes} {s t : TrackerState} {r : Request}

theorem Same.reply (h : Alike g r.user s t) (result : CommandResult) : Same g r.user (s, result) (t, result) :=
  ⟨rfl, h⟩

theorem Same.setOther (h : Alike g r.user s t) {n : Bytes} (hn : n ≠ g) (group : Group) (result : CommandResult) :
    Same g r.user (s.setGroup n group, result) (t.setGroup n group, result) :=
  ⟨rfl, h.setOther hn group⟩

/-- What is known when `r.user` is outside `g` in both states. -/
structure Blind (g : Bytes) (r : Request) (s t : TrackerState) : Prop where
  alike : Alike g r.user s t
  left : ∀ group, s.groups.find g = some group → Outsider r.user group
  right : ∀ group, t.groups.find g = some group → Outsider r.user group

/-- A command on a group sees the same group in both states, or `g` itself. -/
theorem Blind.cases (h : Blind g r s t) (n : Bytes) {P : Prop}
    (hother : t.findGroup n = s.findGroup n → (∀ group, s.findGroup n = some group → n ≠ g) → P)
    (hgroup : ∀ a b, n = g → s.findGroup n = some a → t.findGroup n = some b → GroupAlike r.user a b →
      Outsider r.user a → Outsider r.user b → P) : P := by
  by_cases hn : n = g
  · subst hn
    rcases h.alike.group with ⟨hs, ht⟩ | ⟨a, b, hs, ht, hab⟩
    · exact hother (ht.trans hs.symm) (fun group hf => absurd (hs.symm.trans hf) (by simp))
    · exact hgroup a b rfl hs ht hab (h.left a hs) (h.right b ht)
  · exact hother (h.alike.other n hn).symm (fun _ _ => hn)

theorem createUser_same (ssl : OpenSsl) (h : Blind g r s t) :
    Same g r.user (createUser ssl s r) (createUser ssl t r) := by
  simp only [createUser, h.alike.users]
  split_ifs
  · exact Same.reply h.alike _
  · exact Same.reply h.alike _
  · exact ⟨rfl, h.alike.withUsers _⟩

theorem login_same (ssl : OpenSsl) (h : Blind g r s t) (hr : r.user ≠ []) :
    Same g r.user (login ssl s r) (login ssl t r) := by
  have hin : (!r.user.isEmpty) = true := by simpa using hr
  simp only [login, if_pos hin]
  exact Same.reply h.alike _

theorem logout_same (h : Blind g r s t) : Same g r.user (logout s r) (logout t r) := by
  unfold logout
  split_ifs
  · exact Same.reply h.alike _
  · rw [h.alike.sessions]
    exact ⟨rfl, (h.alike.removeShares r.user).withSessions _⟩

theorem createGroup_same (h : Blind g r s t) : Same g r.user (createGroup s r) (createGroup t r) := by
  simp only [createGroup, h.alike.contains]
  split_ifs
  · exact Same.reply h.alike _
  · by_cases hn : r.arg 0 = g
    · rw [hn]
      exact ⟨rfl, h.alike.setGroup ⟨rfl, rfl, rfl⟩⟩
    · exact Same.setOther h.alike hn _ _

theorem joinGroup_same (h : Blind g r s t) : Same g r.user (joinGroup s r) (joinGroup t r) := by
  apply h.cases (r.arg 0)
  · intro hsame hn
    simp only [joinGroup, hsame]
    cases hf : s.findGroup (r.arg 0) with
    | none => exact Same.reply h.alike _
    | some group =>
      dsimp only
      split_ifs
      · exact Same.reply h.alike _
      · exact Same.reply h.alike _
      · exact Same.setOther h.alike (hn group hf) _ _
  · intro a b hn hs ht hab ha hb
    simp only [joinGroup, hs, ht, hab.pending, ha.member, hb.member, Bool.false_eq_true, if_false]
    split_ifs
    · exact Same.reply h.alike _
    · rw [hn]
      exact ⟨rfl, h.alike.setGroup ⟨hab.owner, hab.member, by simp⟩⟩

theorem leaveGroup_same (h : Blind g r s t) : Same g r.user (leaveGroup s r) (leaveGroup t r) := by
  apply h.cases (r.arg 0)
  · intro hsame hn
    simp only [leaveGroup, hsame]
    cases hf : s.findGroup (r.arg 0) with
    | none => exact Same.reply h.alike _
    | some group =>
      dsimp only
      split_ifs
      · exact Same.reply h.alike _
      · exact Same.reply h.alike _
      · exact Same.setOther h.alike (hn group hf) _ _
  · intro a b hn hs ht hab ha hb
    simp only [leaveGroup, hs, ht, ha.owner, hb.owner, ha.member, hb.member, Bool.not_false, if_false, if_true]
    exact Same.reply h.alike _

theorem listGroups_same (h : Blind g r s t) : Same g r.user (listGroups s r) (listGroups t r) := by
  simp only [listGroups, OrderedMap.keys_eq_of_contains h.alike.contains]
  exact Same.reply h.alike _

theorem listRequests_same (h : Blind g r s t) : Same g r.user (listRequests s r) (listRequests t r) := by
  apply h.cases (r.arg 0)
  · intro hsame hn
    simp only [listRequests, hsame]
    cases hf : s.findGroup (r.arg 0) with
    | none => exact Same.reply h.alike _
    | some group =>
      dsimp only
      split_ifs <;> exact Same.reply h.alike _
  · intro a b hn hs ht hab ha hb
    simp only [listRequests, hs, ht, ne_eq, ha.owner, hb.owner, not_false_eq_true, if_true]
    exact Same.reply h.alike _

theorem acceptRequest_same (h : Blind g r s t) : Same g r.user (acceptRequest s r) (acceptRequest t r) := by
  apply h.cases (r.arg 0)
  · intro hsame hn
    simp only [acceptRequest, hsame]
    cases hf : s.findGroup (r.arg 0) with
    | none => exact Same.reply h.alike _
    | some group =>
      dsimp only
      split_ifs
      · exact Same.reply h.alike _
      · exact Same.reply h.alike _
      · exact Same.setOther h.alike (hn group hf) _ _
  · intro a b hn hs ht hab ha hb
    simp only [acceptRequest, hs, ht, ne_eq, ha.owner, hb.owner, not_false_eq_true, if_true]
    exact Same.reply h.alike _

theorem removeMember_same (h : Blind g r s t) : Same g r.user (removeMember s r) (removeMember t r) := by
  apply h.cases (r.arg 0)
  · intro hsame hn
    simp only [removeMember, hsame]
    cases hf : s.findGroup (r.arg 0) with
    | none => exact Same.reply h.alike _
    | some group =>
      dsimp only
      split_ifs
      · exact Same.reply h.alike _
      · exact Same.reply h.alike _
      · exact Same.reply h.alike _
      · exact Same.setOther h.alike (hn group hf) _ _
  · intro a b hn hs ht hab ha hb
    simp only [removeMember, hs, ht, ne_eq, ha.owner, hb.owner, not_false_eq_true, if_true]
    exact Same.reply h.alike _

theorem uploadFile_same (h : Blind g r s t) : Same g r.user (uploadFile s r) (uploadFile t r) := by
  apply h.cases (r.arg 0)
  · intro hsame hn
    simp only [uploadFile, hsame]
    cases hf : s.findGroup (r.arg 0) with
    | none => exact Same.reply h.alike _
    | some group =>
      dsimp only
      split_ifs
      · exact Same.reply h.alike _
      · cases parseUpload r.args with
        | none => exact Same.reply h.alike _
        | some upload =>
          dsimp only
          cases shareFile (group.files.find upload.name) upload r.user with
          | none => exact Same.reply h.alike _
          | some file => exact Same.setOther h.alike (hn group hf) _ _
  · intro a b hn hs ht hab ha hb
    simp only [uploadFile, hs, ht, ha.member, hb.member, Bool.not_false, if_true]
    exact Same.reply h.alike _

theorem listFiles_same (h : Blind g r s t) : Same g r.user (listFiles s r) (listFiles t r) := by
  apply h.cases (r.arg 0)
  · intro hsame hn
    simp only [listFiles, hsame]
    cases hf : s.findGroup (r.arg 0) with
    | none => exact Same.reply h.alike _
    | some group =>
      dsimp only
      split_ifs <;> exact Same.reply h.alike _
  · intro a b hn hs ht hab ha hb
    simp only [listFiles, hs, ht, ha.member, hb.member, Bool.not_false, if_true]
    exact Same.reply h.alike _

theorem downloadFile_same (ssl : OpenSsl) (h : Blind g r s t) :
    Same g r.user (downloadFile ssl s r) (downloadFile ssl t r) := by
  apply h.cases (r.arg 0)
  · intro hsame hn
    simp only [downloadFile, hsame]
    cases hf : s.findGroup (r.arg 0) with
    | none => exact Same.reply h.alike _
    | some group =>
      dsimp only
      split_ifs
      · exact Same.reply h.alike _
      · cases fromHex (r.arg 1) with
        | none => exact Same.reply h.alike _
        | some name =>
          dsimp only
          cases group.files.find name with
          | none => exact Same.reply h.alike _
          | some file =>
            dsimp only
            split_ifs
            · exact Same.reply h.alike _
            · cases issueAccesses ssl ⟨r.user, r.arg 0, name, r.context.now + PeerTicket.LIFETIME_SECONDS⟩
                file.seeders.entries <;> exact Same.reply h.alike _
  · intro a b hn hs ht hab ha hb
    simp only [downloadFile, hs, ht, ha.member, hb.member, Bool.not_false, if_true]
    exact Same.reply h.alike _

/-- To an outsider a file that others share looks like one that is not there. -/
theorem stopShare_outsider {s : TrackerState} {group : Group} (hs : s.findGroup (r.arg 0) = some group)
    (hout : Outsider r.user group) : stopShare s r = (s, r.reply (match fromHex (r.arg 1) with
      | some _ => lit "ERR you are not sharing this file"
      | none => lit "ERR invalid group/file")) := by
  simp only [stopShare, hs]
  cases fromHex (r.arg 1) with
  | none => rfl
  | some name =>
    dsimp only
    cases hf : group.files.find name with
    | none => rfl
    | some file => simp [hout.seeder name file hf]

theorem stopShare_same (h : Blind g r s t) : Same g r.user (stopShare s r) (stopShare t r) := by
  apply h.cases (r.arg 0)
  · intro hsame hn
    simp only [stopShare, hsame]
    cases hf : s.findGroup (r.arg 0) with
    | none => exact Same.reply h.alike _
    | some group =>
      cases fromHex (r.arg 1) with
      | none => exact Same.reply h.alike _
      | some name =>
        dsimp only
        cases group.files.find name with
        | none => exact Same.reply h.alike _
        | some file =>
          dsimp only
          split_ifs
          · exact Same.reply h.alike _
          · exact Same.setOther h.alike (hn group hf) _ _
          · exact Same.setOther h.alike (hn group hf) _ _
  · intro a b hn hs ht hab ha hb
    rw [stopShare_outsider hs ha, stopShare_outsider ht hb]
    exact Same.reply h.alike _

/-- No command of the table tells the two states apart. -/
theorem handler_same {ssl : OpenSsl} {name : Bytes} {spec : Command} (hspec : (name, spec) ∈ commands ssl)
    (h : Blind g r s t) (hr : r.user ≠ []) : Same g r.user (spec.handler s r) (spec.handler t r) := by
  simp only [commands, List.mem_cons, Prod.mk.injEq, List.not_mem_nil, or_false] at hspec
  rcases hspec with hc | hc | hc | hc | hc | hc | hc | hc | hc | hc | hc | hc | hc | hc
  all_goals obtain ⟨-, rfl⟩ := hc
  · exact createUser_same ssl h
  · exact login_same ssl h hr
  · exact logout_same h
  · exact createGroup_same h
  · exact joinGroup_same h
  · exact leaveGroup_same h
  · exact listGroups_same h
  · exact listRequests_same h
  · exact acceptRequest_same h
  · exact removeMember_same h
  · exact uploadFile_same h
  · exact listFiles_same h
  · exact downloadFile_same ssl h
  · exact stopShare_same h

end Handlers

variable {ssl : OpenSsl}

/-- One command of an outsider. -/
theorem step_same {g u : Bytes} {s t : TrackerState} {c : Call} (h : Alike g u s t) (hs : s.Consistent)
    (ht : t.Consistent) (hout : ¬ Member s g u) (hby : s.sessions.find c.session = some u) :
    Same g u (step ssl s c) (step ssl t c) := by
  have hu : s.userOf c.session = u := by simp [userOf, hby]
  have hne : u ≠ [] := hs.user_name u (hs.session_registered _ _ hby)
  have houtsider : ∀ {w : TrackerState}, w.Consistent → ¬ Member w g u → ∀ group, w.groups.find g = some group →
      Outsider u group := by
    intro w hw hnot group hgroup
    refine outsider_of_consistent (hw.group g group hgroup) ?_
    rw [member_of_find hgroup] at hnot
    simpa using hnot
  simp only [step, apply]
  split
  · exact ⟨rfl, h⟩
  · next name args hwords =>
    split
    · exact ⟨rfl, h⟩
    · next spec hspec =>
      rw [← h.userOf, hu]
      split_ifs
      · exact ⟨rfl, h⟩
      · exact ⟨rfl, h⟩
      · exact handler_same (r := ⟨c.session, u, args, c.context⟩) (mem_of_lookup hspec)
          ⟨h, houtsider hs hout, houtsider ht (fun hm => hout (h.member_iff.mpr hm))⟩ hne

/-- Only by creating the group does an outsider get in on its own. -/
theorem outside_after {g u : Bytes} {s : TrackerState} {c : Call} (hs : s.Consistent) (hout : ¬ Member s g u)
    (hby : s.sessions.find c.session = some u) (hm : Member (step ssl s c).1 g u) :
    words c.commandLine = [lit "create_group", g] ∧ s.groups.find g = none := by
  have hstep := (@apply_effect ssl s c).membershipStep g u
  by_cases hcreated : Created g u (Machine.event (step ssl) s c)
  · refine ⟨hcreated.1.1, ?_⟩
    cases hgroup : s.groups.find g with
    | none => rfl
    | some group => exact absurd ((owner_of_find hgroup).mpr rfl) (hstep.created_new u hcreated group.owner)
  · by_cases hchange : Changes g u (Machine.event (step ssl) s c)
    · rcases hchange with haccepted | hdropped
      · obtain ⟨owner, hruler, group, hgroup, rfl⟩ := hstep.ruled (Or.inl haccepted)
        have hu : group.owner = u := Option.some.inj (hruler.symm.trans hby)
        have hmember := (hs.group g group hgroup).owner_member
        rw [hu] at hmember
        exact absurd ⟨group, hgroup, hmember⟩ hout
      · exact absurd hm (hstep.dropped hdropped).1
    · exact absurd ((hstep.member hchange hcreated).mp hm) hout

/-- A user outside of `g` gets the same replies and sessions whatever the files of `g` are and whoever else is in it
or waits to join, for one command and for any sequence of them. -/
theorem noninterference (ssl : OpenSsl) (g u : Bytes) (s t : TrackerState) (hs : Reachable ssl s)
    (ht : Reachable ssl t) (h : Alike g u s t) (hout : ¬ Member s g u) :
    (∀ c, s.sessions.find c.session = some u → (step ssl s c).2 = (step ssl t c).2 ∧
      Alike g u (step ssl s c).1 (step ssl t c).1 ∧
      (¬ Member (step ssl s c).1 g u ∧ ¬ Member (step ssl t c).1 g u ∨
        words c.commandLine = [lit "create_group", g] ∧ s.groups.find g = none)) ∧
    ∀ calls, Machine.Along (step ssl) (fun w c => w.sessions.find c.session = some u ∧ ¬ Member w g u) s calls →
      (Machine.events (step ssl) s calls).map Event.output = (Machine.events (step ssl) t calls).map Event.output := by
  constructor
  · intro c hby
    have hsame := @step_same ssl g u s t c h (Reachable.consistent hs) (Reachable.consistent ht) hout hby
    refine ⟨hsame.1, hsame.2, ?_⟩
    by_cases hm : Member (step ssl s c).1 g u
    · exact Or.inr (outside_after (Reachable.consistent hs) hout hby hm)
    · exact Or.inl ⟨hm, fun hm' => hm (hsame.2.member_iff.mpr hm')⟩
  · intro calls hcalls
    refine Machine.outputs_eq (R := fun s t => Alike g u s t ∧ s.Consistent ∧ t.Consistent)
      ⟨h, Reachable.consistent hs, Reachable.consistent ht⟩ ?_ hcalls
    rintro s t c ⟨h, hs, ht⟩ ⟨hby, hout⟩
    obtain ⟨hanswer, hnext⟩ := @step_same ssl g u s t c h hs ht hout hby
    exact ⟨hanswer, hnext, step_consistent s c hs, step_consistent t c ht⟩

/-- An upload shows only inside its group. -/
theorem alike_upload {s : TrackerState} {c : Call} {name : Bytes} {args : List Bytes} (u : Bytes)
    (hw : words c.commandLine = lit "upload_file" :: name :: args) : Alike name u s (step ssl s c).1 := by
  have hrefl : Alike name u s s := by
    refine ⟨rfl, rfl, fun _ _ => rfl, ?_⟩
    cases hgroup : s.groups.find name with
    | none => exact Or.inl ⟨rfl, rfl⟩
    | some group => exact Or.inr ⟨group, group, rfl, rfl, rfl, rfl, rfl⟩
  have hother : ∀ {other : Bytes} {rest : List Bytes} {P : Prop}, words c.commandLine = other :: rest →
      other ≠ lit "upload_file" → P := by
    intro other rest P hwords hne
    exact absurd (List.cons.inj (hwords.symm.trans hw)).1 hne
  have heffect := @apply_effect ssl s c
  generalize (step ssl s c).1 = s', (step ssl s c).2 = result at heffect
  cases heffect with
  | refused => exact hrefl
  | uploadFile name' args' group upload file hwords huser hgroup hmember hupload hfile =>
    obtain ⟨rfl, -⟩ : name' = name ∧ args' = args := by simpa using hwords.symm.trans hw
    refine ⟨rfl, rfl, fun n hn => by simp [setGroup, hn], Or.inr ⟨group, _, hgroup, by simp [setGroup]; rfl, ?_⟩⟩
    exact ⟨rfl, rfl, rfl⟩
  | listed text hwords =>
    obtain ⟨args, hwords | hwords | hwords⟩ := hwords <;> exact hother hwords (by decide)
  | createUser name secret hwords => exact hother hwords (by decide)
  | login name secret stored session hwords => exact hother hwords (by decide)
  | logout hwords => exact hother hwords (by decide)
  | createGroup name hwords => exact hother hwords (by decide)
  | joinGroup name group hwords => exact hother hwords (by decide)
  | leaveGroup name group hwords => exact hother hwords (by decide)
  | acceptRequest name user group hwords => exact hother hwords (by decide)
  | removeMember name user group hwords => exact hother hwords (by decide)
  | downloadFile name hexFile fileName group file accesses hwords => exact hother hwords (by decide)
  | stopShare name hexFile fileName group file hwords => exact hother hwords (by decide)

/-- Bob cannot see whether Alice has shared a file in a group he is not in. -/
theorem noninterference_bob :
    let upload : Call := ⟨7, lit "upload_file g 66 0 da39a3ee5e6b4b0d3255bfef95601890afd80709 - 10.0.0.1 6881 " ++
      toHex peerKeyOfAlice, ⟨[], 0, 1000⟩⟩
    let alone := Machine.run (step recording.replay) empty (aliceAndBob.take 5)
    (step recording.replay alone upload).2.response = lit "OK file shared" ∧
      (step recording.replay alone ⟨9, lit "stop_share g 66", ⟨[], 0, 1100⟩⟩).2 =
        (step recording.replay (step recording.replay alone upload).1 ⟨9, lit "stop_share g 66", ⟨[], 0, 1100⟩⟩).2 := by
  intro upload alone
  have hwords : words upload.commandLine = lit "upload_file" :: lit "g" :: (words upload.commandLine).drop 2 := by
    decide +kernel
  have hout : ¬ Member alone (lit "g") (lit "bob") := by
    rintro ⟨group, hgroup, hmember⟩
    have hno : (alone.groups.find (lit "g")).any (fun group => group.members.contains (lit "bob")) = false := by
      decide +kernel
    rw [hgroup, Option.any_some, hmember] at hno
    simp at hno
  refine ⟨by decide +kernel, ?_⟩
  exact ((noninterference recording.replay (lit "g") (lit "bob") alone (step recording.replay alone upload).1
    ⟨aliceAndBob.take 5, rfl⟩ (Machine.Reachable.next ⟨aliceAndBob.take 5, rfl⟩ upload) (alike_upload _ hwords)
    hout).1 ⟨9, lit "stop_share g 66", ⟨[], 0, 1100⟩⟩ (by decide +kernel)).1

end TorrentAtlas.TrackerState
