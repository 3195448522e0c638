import TorrentAtlas.TrackerInvariant

/-!
# Who is in a group, and why

Membership is explained by the history of commands: `MembershipStep` says what
one command does to one user's standing in one group, and an induction over the
run turns it into a characterisation by the latest event about that user.
-/
namespace TorrentAtlas.TrackerState

open Encoding Crypto

abbrev TrackerEvent := Event TrackerState Call CommandResult

/-- Words and reply of a successful command. -/
def Succeeded (e : TrackerEvent) (command : List Bytes) (reply : Bytes) : Prop :=
  words e.input.commandLine = command ∧ e.output.response = reply

instance (e : TrackerEvent) (command : List Bytes) (reply : Bytes) : Decidable (Succeeded e command reply) :=
  inferInstanceAs (Decidable (_ ∧ _))

/-- The event ran under a session bound to `user`. -/
def By (e : TrackerEvent) (user : Bytes) : Prop := e.before.sessions.find e.input.session = some user

instance (e : TrackerEvent) (user : Bytes) : Decidable (By e user) := inferInstanceAs (Decidable (_ = _))

def Created (g u : Bytes) (e : TrackerEvent) : Prop :=
  Succeeded e [lit "create_group", g] (lit "OK group created") ∧ By e u

def Joined (g u : Bytes) (e : TrackerEvent) : Prop :=
  Succeeded e [lit "join_group", g] (lit "OK join requested") ∧ By e u

def Left (g u : Bytes) (e : TrackerEvent) : Prop :=
  Succeeded e [lit "leave_group", g] (lit "OK left group") ∧ By e u

def Accepted (g u : Bytes) (e : TrackerEvent) : Prop :=
  Succeeded e [lit "accept_request", g, u] (lit "OK request accepted")

def Removed (g u : Bytes) (e : TrackerEvent) : Prop :=
  Succeeded e [lit "remove_member", g, u] (lit "OK member removed")

/-- The events that can change whether `u` is in `g` once `g` exists. -/
def Changes (g u : Bytes) (e : TrackerEvent) : Prop := Accepted g u e ∨ Removed g u e ∨ Left g u e

instance (g u : Bytes) (e : TrackerEvent) : Decidable (Created g u e) := inferInstanceAs (Decidable (_ ∧ _))
instance (g u : Bytes) (e : TrackerEvent) : Decidable (Joined g u e) := inferInstanceAs (Decidable (_ ∧ _))
instance (g u : Bytes) (e : TrackerEvent) : Decidable (Left g u e) := inferInstanceAs (Decidable (_ ∧ _))
instance (g u : Bytes) (e : TrackerEvent) : Decidable (Accepted g u e) :=
  inferInstanceAs (Decidable (Succeeded _ _ _))
instance (g u : Bytes) (e : TrackerEvent) : Decidable (Removed g u e) :=
  inferInstanceAs (Decidable (Succeeded _ _ _))
instance (g u : Bytes) (e : TrackerEvent) : Decidable (Changes g u e) := inferInstanceAs (Decidable (_ ∨ _))

/-- The latest event of a history about `u` in `g`. -/
def latest (g u : Bytes) (history : List TrackerEvent) : Option TrackerEvent :=
  history.reverse.find? (fun e => decide (Changes g u e))

def Member (s : TrackerState) (g u : Bytes) : Prop :=
  ∃ group, s.groups.find g = some group ∧ group.members.contains u = true

def Pending (s : TrackerState) (g u : Bytes) : Prop :=
  ∃ group, s.groups.find g = some group ∧ group.pending.contains u = true

def Owner (s : TrackerState) (g u : Bytes) : Prop :=
  ∃ group, s.groups.find g = some group ∧ group.owner = u

section Views

variable {s : TrackerState} {g n u : Bytes} {group : Group}

theorem member_setGroup : Member (s.setGroup n group) g u ↔
    if g = n then group.members.contains u = true else Member s g u := by
  by_cases h : g = n <;> simp [Member, setGroup, h]

theorem pending_setGroup : Pending (s.setGroup n group) g u ↔
    if g = n then group.pending.contains u = true else Pending s g u := by
  by_cases h : g = n <;> simp [Pending, setGroup, h]

theorem owner_setGroup : Owner (s.setGroup n group) g u ↔ if g = n then group.owner = u else Owner s g u := by
  by_cases h : g = n <;> simp [Owner, setGroup, h]

theorem member_of_find (h : s.groups.find g = some group) : Member s g u ↔ group.members.contains u = true := by
  simp [Member, h]

theorem pending_of_find (h : s.groups.find g = some group) : Pending s g u ↔ group.pending.contains u = true := by
  simp [Pending, h]

theorem owner_of_find (h : s.groups.find g = some group) : Owner s g u ↔ group.owner = u := by
  simp [Owner, h]

end Views

variable {ssl : OpenSsl}

/-- What one command does to the standing of `u` in `g`. -/
structure MembershipStep (g u : Bytes) (e : TrackerEvent) : Prop where
  created : Created g u e → Member e.after g u ∧ ∀ v, Owner e.after g v ↔ v = u
  created_new : ∀ v, Created g v e → ∀ w, ¬ Owner e.before g w
  accepted : Accepted g u e → Member e.after g u ∧ Pending e.before g u
  dropped : Removed g u e ∨ Left g u e → ¬ Member e.after g u ∧ ¬ Owner e.before g u
  ruled : Accepted g u e ∨ Removed g u e → ∃ v, By e v ∧ Owner e.before g v
  member : ¬ Changes g u e → ¬ Created g u e → (Member e.after g u ↔ Member e.before g u)
  pending : Pending e.after g u → Joined g u e ∨ (Pending e.before g u ∧ ¬ Accepted g u e)
  owner : (∀ v, ¬ Created g v e) → ∀ v, Owner e.after g v ↔ Owner e.before g v

/-- Events that are no successful membership command. -/
structure Quiet (e : TrackerEvent) : Prop where
  created : ∀ g u, ¬ Created g u e
  joined : ∀ g u, ¬ Joined g u e
  left : ∀ g u, ¬ Left g u e
  accepted : ∀ g u, ¬ Accepted g u e
  removed : ∀ g u, ¬ Removed g u e

theorem quiet_of_error {e : TrackerEvent} (h : IsError e.output.response) : Quiet e where
  created g u hc := absurd (hc.1.2 ▸ h) (by decide)
  joined g u hc := absurd (hc.1.2 ▸ h) (by decide)
  left g u hc := absurd (hc.1.2 ▸ h) (by decide)
  accepted g u hc := absurd (hc.2 ▸ h) (by decide)
  removed g u hc := absurd (hc.2 ▸ h) (by decide)

theorem quiet_of_name {e : TrackerEvent} {name : Bytes} {args : List Bytes}
    (h : words e.input.commandLine = name :: args)
    (hname : name ∉ [lit "create_group", lit "join_group", lit "leave_group", lit "accept_request",
      lit "remove_member"]) : Quiet e := by
  have hne : ∀ {other : Bytes} {rest : List Bytes}, words e.input.commandLine = other :: rest →
      other ∈ [lit "create_group", lit "join_group", lit "leave_group", lit "accept_request",
        lit "remove_member"] → False := by
    intro other rest hw hmem
    rw [h, List.cons.injEq] at hw
    exact hname (hw.1 ▸ hmem)
  exact ⟨fun g u hc => hne hc.1.1 (by simp), fun g u hc => hne hc.1.1 (by simp),
    fun g u hc => hne hc.1.1 (by simp), fun g u hc => hne hc.1 (by simp), fun g u hc => hne hc.1 (by simp)⟩

theorem Quiet.membershipStep {e : TrackerEvent} (h : Quiet e) (g u : Bytes)
    (hmember : Member e.after g u ↔ Member e.before g u)
    (hpending : Pending e.after g u → Pending e.before g u)
    (howner : ∀ v, Owner e.after g v ↔ Owner e.before g v) : MembershipStep g u e where
  created hc := absurd hc (h.created g u)
  created_new v hc := absurd hc (h.created g v)
  accepted hc := absurd hc (h.accepted g u)
  dropped hc := hc.elim (fun hr => absurd hr (h.removed g u)) (fun hl => absurd hl (h.left g u))
  ruled hc := hc.elim (fun ha => absurd ha (h.accepted g u)) (fun hr => absurd hr (h.removed g u))
  member _ _ := hmember
  pending hp := Or.inr ⟨hpending hp, h.accepted g u⟩
  owner _ := howner

/-- Replacing a group by one with the same owner, members and pending users is invisible here. -/
theorem Quiet.membershipStep_setGroup {s : TrackerState} {c : Call} {result : CommandResult}
    {name : Bytes} {old new : Group} (h : Quiet ⟨s, c, result, s.setGroup name new⟩) (g u : Bytes)
    (hold : s.groups.find name = some old) (hm : new.members = old.members) (hp : new.pending = old.pending)
    (ho : new.owner = old.owner) : MembershipStep g u ⟨s, c, result, s.setGroup name new⟩ := by
  apply h.membershipStep
  · rw [member_setGroup]
    split
    · next he => rw [he, member_of_find hold, hm]
    · rfl
  · rw [pending_setGroup]
    split
    · next he => rw [he, pending_of_find hold, hp]; exact id
    · exact id
  · intro v
    rw [owner_setGroup]
    split
    · next he => rw [he, owner_of_find hold, ho]
    · rfl

section Commands

variable {s : TrackerState} {c : Call} {name user : Bytes} {group : Group}

/-- A successful command with other words is a different command. -/
theorem Succeeded.eq {e : TrackerEvent} {command args : List Bytes} {reply : Bytes}
    (h : Succeeded e command reply) (hw : words e.input.commandLine = args) : args = command :=
  hw.symm.trans h.1

theorem createGroup_membershipStep (g u : Bytes) {result : UInt64}
    (hw : words c.commandLine = [lit "create_group", name]) (hby : s.sessions.find c.session = some user)
    (hnew : s.groups.find name = none) :
    MembershipStep g u ⟨s, c, ⟨lit "OK group created", result⟩,
      s.setGroup name ⟨user, OrderedMap.empty.insert user (), .empty, .empty⟩⟩ := by
  generalize he : (⟨s, c, _, _⟩ : TrackerEvent) = e
  have hwe : words e.input.commandLine = [lit "create_group", name] := by rw [← he]; exact hw
  have hmine : Created name user e := by rw [← he]; exact ⟨⟨hw, rfl⟩, hby⟩
  have hcreated : ∀ g v, Created g v e → g = name ∧ v = user := by
    intro g v hc
    refine ⟨by simpa using (hc.1.eq hwe).symm, ?_⟩
    have := hc.2
    rw [← he] at this
    exact Option.some.inj (this.symm.trans hby)
  have hnone : ∀ v, ¬ Owner s name v := by rintro v ⟨grp, hf, -⟩; simp [hnew] at hf
  have hnot : ¬ Accepted g u e ∧ ¬ Removed g u e ∧ ¬ Left g u e := by
    refine ⟨fun h => ?_, fun h => ?_, fun h => ?_⟩
    · exact absurd (List.cons.inj (h.eq hwe)).1 (by decide)
    · exact absurd (List.cons.inj (h.eq hwe)).1 (by decide)
    · exact absurd (List.cons.inj (h.1.eq hwe)).1 (by decide)
  obtain ⟨hacc, hrem, hleft⟩ := hnot
  constructor
  · intro hc
    obtain ⟨rfl, rfl⟩ := hcreated g u hc
    rw [← he]
    exact ⟨by simp [member_setGroup], fun v => by simp [owner_setGroup, eq_comm]⟩
  · intro v hc w
    obtain ⟨rfl, rfl⟩ := hcreated g v hc
    rw [← he]
    exact hnone w
  · exact fun h => absurd h hacc
  · exact fun h => h.elim (absurd · hrem) (absurd · hleft)
  · exact fun h => h.elim (absurd · hacc) (absurd · hrem)
  · intro _ hc
    rw [← he, member_setGroup]
    split
    · next hg =>
      have hu : u ≠ user := by rintro rfl; exact hc (hg ▸ hmine)
      simp [Member, hg, hnew, hu]
    · rfl
  · rw [← he, pending_setGroup]
    intro hp
    split at hp
    · simp at hp
    · exact Or.inr ⟨hp, he ▸ hacc⟩
  · intro hc v
    have hg : g ≠ name := by rintro rfl; exact hc user hmine
    rw [← he, owner_setGroup, if_neg hg]

theorem joinGroup_membershipStep (g u : Bytes) {result : UInt64}
    (hw : words c.commandLine = [lit "join_group", name]) (hby : s.sessions.find c.session = some user)
    (hgroup : s.groups.find name = some group) :
    MembershipStep g u ⟨s, c, ⟨lit "OK join requested", result⟩,
      s.setGroup name { group with pending := group.pending.insert user () }⟩ := by
  generalize he : (⟨s, c, _, _⟩ : TrackerEvent) = e
  have hwe : words e.input.commandLine = [lit "join_group", name] := by rw [← he]; exact hw
  have hmine : Joined name user e := by rw [← he]; exact ⟨⟨hw, rfl⟩, hby⟩
  have hcre : ∀ v, ¬ Created g v e := fun v h => absurd (List.cons.inj (h.1.eq hwe)).1 (by decide)
  have hacc : ¬ Accepted g u e := fun h => absurd (List.cons.inj (h.eq hwe)).1 (by decide)
  have hrem : ¬ Removed g u e := fun h => absurd (List.cons.inj (h.eq hwe)).1 (by decide)
  have hleft : ¬ Left g u e := fun h => absurd (List.cons.inj (h.1.eq hwe)).1 (by decide)
  constructor
  · exact fun h => absurd h (hcre u)
  · exact fun v h => absurd h (hcre v)
  · exact fun h => absurd h hacc
  · exact fun h => h.elim (absurd · hrem) (absurd · hleft)
  · exact fun h => h.elim (absurd · hacc) (absurd · hrem)
  · intro _ _
    rw [← he, member_setGroup]
    split
    · next hg => rw [hg, member_of_find hgroup]
    · rfl
  · intro hp
    have hp' := hp
    rw [← he, pending_setGroup] at hp'
    split at hp'
    · next hg =>
      simp only [OrderedMap.contains_insert, Bool.or_eq_true, decide_eq_true_eq] at hp'
      rcases hp' with rfl | hp'
      · exact Or.inl (hg ▸ hmine)
      · exact Or.inr ⟨by rw [← he, hg, pending_of_find hgroup]; exact hp', hacc⟩
    · exact Or.inr ⟨by rw [← he]; exact hp', hacc⟩
  · intro _ v
    rw [← he, owner_setGroup]
    split
    · next hg => rw [hg, owner_of_find hgroup]
    · rfl

theorem acceptRequest_membershipStep (g u : Bytes) {result : UInt64}
    (hw : words c.commandLine = [lit "accept_request", name, user])
    (hby : s.sessions.find c.session = some group.owner) (hgroup : s.groups.find name = some group)
    (hpending : group.pending.contains user = true) :
    MembershipStep g u ⟨s, c, ⟨lit "OK request accepted", result⟩,
      s.setGroup name { group with
        pending := group.pending.erase user, members := group.members.insert user () }⟩ := by
  generalize he : (⟨s, c, _, _⟩ : TrackerEvent) = e
  have hwe : words e.input.commandLine = [lit "accept_request", name, user] := by rw [← he]; exact hw
  have hmine : Accepted name user e := by rw [← he]; exact ⟨hw, rfl⟩
  have haccepted : Accepted g u e → g = name ∧ u = user := by
    intro h
    have := h.eq hwe
    simp only [List.cons.injEq, and_true, true_and] at this
    exact ⟨this.1.symm, this.2.symm⟩
  have hcre : ∀ v, ¬ Created g v e := fun v h => absurd (List.cons.inj (h.1.eq hwe)).1 (by decide)
  have hrem : ¬ Removed g u e := fun h => absurd (List.cons.inj (h.eq hwe)).1 (by decide)
  have hleft : ¬ Left g u e := fun h => absurd (List.cons.inj (h.1.eq hwe)).1 (by decide)
  constructor
  · exact fun h => absurd h (hcre u)
  · exact fun v h => absurd h (hcre v)
  · intro h
    obtain ⟨rfl, rfl⟩ := haccepted h
    rw [← he]
    exact ⟨by simp [member_setGroup], (pending_of_find hgroup).mpr hpending⟩
  · exact fun h => h.elim (absurd · hrem) (absurd · hleft)
  · intro h
    obtain ⟨rfl, rfl⟩ := haccepted (h.resolve_right hrem)
    rw [← he]
    exact ⟨group.owner, hby, (owner_of_find hgroup).mpr rfl⟩
  · intro hchange _
    rw [← he, member_setGroup]
    split
    · next hg =>
      have hu : u ≠ user := by rintro rfl; exact hchange (Or.inl (hg ▸ hmine))
      rw [hg, member_of_find hgroup]
      simp [hu]
    · rfl
  · intro hp
    have hp' := hp
    rw [← he, pending_setGroup] at hp'
    refine Or.inr ⟨?_, ?_⟩
    · rw [← he]
      split at hp'
      · next hg =>
        simp only [OrderedMap.contains_erase, Bool.and_eq_true] at hp'
        rw [hg, pending_of_find hgroup]
        exact hp'.2
      · exact hp'
    · intro h
      obtain ⟨rfl, rfl⟩ := haccepted h
      simp at hp'
  · intro _ v
    rw [← he, owner_setGroup]
    split
    · next hg => rw [hg, owner_of_find hgroup]
    · rfl

/-- Leaving and being removed differ only in who asks for it. -/
theorem drop_membershipStep {g u : Bytes} {result : CommandResult} {e : TrackerEvent}
    (he : (⟨s, c, result,
      s.setGroup name ({ group with members := group.members.erase user }.removeSharesOf user)⟩ : TrackerEvent) = e)
    (hgroup : s.groups.find name = some group) (hother : user ≠ group.owner)
    (hdrop : Removed g u e ∨ Left g u e → g = name ∧ u = user) (hmine : Removed name user e ∨ Left name user e)
    (hcre : ∀ v, ¬ Created g v e) (hacc : ¬ Accepted g u e)
    (hruled : Removed g u e → ∃ v, By e v ∧ Owner e.before g v) : MembershipStep g u e := by
  constructor
  · exact fun h => absurd h (hcre u)
  · exact fun v h => absurd h (hcre v)
  · exact fun h => absurd h hacc
  · intro h
    obtain ⟨rfl, rfl⟩ := hdrop h
    rw [← he, member_setGroup, owner_of_find hgroup]
    exact ⟨by simp [Group.removeSharesOf], Ne.symm hother⟩
  · exact fun h => hruled (h.resolve_left hacc)
  · intro hchange _
    rw [← he, member_setGroup]
    split
    · next hg =>
      have hu : u ≠ user := by rintro rfl; exact hchange (Or.inr (hg ▸ hmine))
      rw [hg, member_of_find hgroup]
      simp [Group.removeSharesOf, hu]
    · rfl
  · intro hp
    have hp' := hp
    rw [← he, pending_setGroup] at hp'
    refine Or.inr ⟨?_, hacc⟩
    rw [← he]
    split at hp'
    · next hg =>
      rw [hg, pending_of_find hgroup]
      exact hp'
    · exact hp'
  · intro _ v
    rw [← he, owner_setGroup]
    split
    · next hg => rw [hg, owner_of_find hgroup]; rfl
    · rfl

theorem leaveGroup_membershipStep (g u : Bytes) {result : UInt64}
    (hw : words c.commandLine = [lit "leave_group", name]) (hby : s.sessions.find c.session = some user)
    (hgroup : s.groups.find name = some group) (howner : group.owner ≠ user) :
    MembershipStep g u ⟨s, c, ⟨lit "OK left group", result⟩,
      s.setGroup name ({ group with members := group.members.erase user }.removeSharesOf user)⟩ := by
  generalize he : (⟨s, c, _, _⟩ : TrackerEvent) = e
  have hwe : words e.input.commandLine = [lit "leave_group", name] := by rw [← he]; exact hw
  have hrem : ¬ Removed g u e := fun h => absurd (List.cons.inj (h.eq hwe)).1 (by decide)
  refine drop_membershipStep he hgroup (Ne.symm howner) ?_ ?_ ?_ ?_ (absurd · hrem)
  · intro h
    have hleft := h.resolve_left hrem
    refine ⟨by simpa using (hleft.1.eq hwe).symm, ?_⟩
    have := hleft.2
    rw [← he] at this
    exact Option.some.inj (this.symm.trans hby)
  · rw [← he]
    exact Or.inr ⟨⟨hw, rfl⟩, hby⟩
  · exact fun v h => absurd (List.cons.inj (h.1.eq hwe)).1 (by decide)
  · exact fun h => absurd (List.cons.inj (h.eq hwe)).1 (by decide)

theorem removeMember_membershipStep (g u : Bytes) {result : UInt64}
    (hw : words c.commandLine = [lit "remove_member", name, user])
    (hby : s.sessions.find c.session = some group.owner) (hgroup : s.groups.find name = some group)
    (hother : user ≠ group.owner) :
    MembershipStep g u ⟨s, c, ⟨lit "OK member removed", result⟩,
      s.setGroup name ({ group with members := group.members.erase user }.removeSharesOf user)⟩ := by
  generalize he : (⟨s, c, _, _⟩ : TrackerEvent) = e
  have hwe : words e.input.commandLine = [lit "remove_member", name, user] := by rw [← he]; exact hw
  have hleft : ¬ Left g u e := fun h => absurd (List.cons.inj (h.1.eq hwe)).1 (by decide)
  have hremoved : Removed g u e → g = name ∧ u = user := by
    intro h
    have := h.eq hwe
    simp only [List.cons.injEq, and_true, true_and] at this
    exact ⟨this.1.symm, this.2.symm⟩
  refine drop_membershipStep he hgroup hother ?_ ?_ ?_ ?_ ?_
  · exact fun h => hremoved (h.resolve_right hleft)
  · rw [← he]
    exact Or.inl ⟨hw, rfl⟩
  · exact fun v h => absurd (List.cons.inj (h.1.eq hwe)).1 (by decide)
  · exact fun h => absurd (List.cons.inj (h.eq hwe)).1 (by decide)
  · intro h
    obtain ⟨rfl, rfl⟩ := hremoved h
    rw [← he]
    exact ⟨group.owner, hby, (owner_of_find hgroup).mpr rfl⟩

end Commands

/-- Every outcome of a command is one membership step. -/
theorem Effect.membershipStep {s s' : TrackerState} {c : Call} {result : CommandResult}
    (e : Effect ssl s c s' result) (g u : Bytes) : MembershipStep g u ⟨s, c, result, s'⟩ := by
  cases e with
  | refused text herr => exact (quiet_of_error herr).membershipStep g u Iff.rfl id (fun _ => Iff.rfl)
  | createUser name secret hwords =>
    exact (quiet_of_name hwords (by decide)).membershipStep g u Iff.rfl id (fun _ => Iff.rfl)
  | login name secret stored session hwords =>
    exact (quiet_of_name hwords (by decide)).membershipStep g u Iff.rfl id (fun _ => Iff.rfl)
  | logout hwords =>
    have hview : ∀ P : Group → Prop, (∀ grp v, P (grp.removeSharesOf v) ↔ P grp) →
        ((∃ grp, (s.groups.mapValues (fun grp => grp.removeSharesOf (s.userOf c.session))).find g = some grp ∧
          P grp) ↔ ∃ grp, s.groups.find g = some grp ∧ P grp) := by
      intro P hP
      cases hf : s.groups.find g <;> simp [hf, hP]
    exact (quiet_of_name hwords (by decide)).membershipStep g u (hview _ fun _ _ => Iff.rfl)
      (hview _ fun _ _ => Iff.rfl).mp (fun v => hview _ fun _ _ => Iff.rfl)
  | listed text hwords =>
    obtain ⟨args, hw | hw | hw⟩ := hwords <;>
      exact (quiet_of_name hw (by decide)).membershipStep g u Iff.rfl id (fun _ => Iff.rfl)
  | downloadFile name hexFile fileName group file accesses hwords =>
    exact (quiet_of_name hwords (by decide)).membershipStep g u Iff.rfl id (fun _ => Iff.rfl)
  | uploadFile name args group upload file hwords huser hgroup =>
    exact (quiet_of_name hwords (by decide)).membershipStep_setGroup g u hgroup rfl rfl rfl
  | stopShare name hexFile fileName group file hwords huser hgroup =>
    exact (quiet_of_name hwords (by decide)).membershipStep_setGroup g u hgroup rfl rfl rfl
  | createGroup name hwords huser hnew =>
    exact createGroup_membershipStep g u hwords (userOf_eq_some huser) hnew
  | joinGroup name group hwords huser hgroup hmember hpending =>
    exact joinGroup_membershipStep g u hwords (userOf_eq_some huser) hgroup
  | leaveGroup name group hwords huser hgroup howner hmember =>
    exact leaveGroup_membershipStep g u hwords (userOf_eq_some huser) hgroup howner
  | acceptRequest name user group hwords huser hgroup howner hpending =>
    exact acceptRequest_membershipStep g u hwords (howner ▸ userOf_eq_some huser) hgroup hpending
  | removeMember name user group hwords huser hgroup howner hother hmember =>
    exact removeMember_membershipStep g u hwords (howner ▸ userOf_eq_some huser) hgroup hother

section History

variable {g u : Bytes} {past : List TrackerEvent} {s : TrackerState} {e : TrackerEvent}

/-- The history accounts for the owner, the members and the pending users of `g`. -/
structure Provenance (g u : Bytes) (past : List TrackerEvent) (s : TrackerState) : Prop where
  creator : ∀ v, (∃ e ∈ past, Created g v e) ↔ Owner s g v
  member : Member s g u ↔ (∃ e ∈ past, Created g u e) ∨ ∃ e, latest g u past = some e ∧ Accepted g u e
  pending : Pending s g u → ∃ earlier j since, past = earlier ++ j :: since ∧ Joined g u j ∧
    ∀ e ∈ since, ¬ Accepted g u e

theorem empty_provenance (g u : Bytes) : Provenance g u [] empty where
  creator v := by simp [Owner, empty]
  member := by simp [Member, empty, latest]
  pending := by rintro ⟨grp, hf, -⟩; simp [empty] at hf

theorem latest_concat : latest g u (past ++ [e]) = if Changes g u e then some e else latest g u past := by
  simp only [latest, List.reverse_append, List.reverse_singleton, List.singleton_append, List.find?_cons]
  split <;> simp_all

theorem exists_mem_concat {p : TrackerEvent → Prop} : (∃ x ∈ past ++ [e], p x) ↔ (∃ x ∈ past, p x) ∨ p e := by
  simp [or_and_right, exists_or]

theorem Owner.unique {v w : Bytes} (hv : Owner s g v) (hw : Owner s g w) : v = w := by
  obtain ⟨group, hgroup, rfl⟩ := hv
  exact (owner_of_find hgroup).mp hw

theorem Provenance.creator_next (h : Provenance g u past e.before) (hstep : ∀ v, MembershipStep g v e) (v : Bytes) :
    (∃ x ∈ past ++ [e], Created g v x) ↔ Owner e.after g v := by
  rw [exists_mem_concat, h.creator v]
  by_cases hc : ∃ w, Created g w e
  · obtain ⟨w, hw⟩ := hc
    rw [((hstep w).created hw).2 v]
    constructor
    · rintro (hv | hv)
      · exact absurd hv ((hstep w).created_new w hw v)
      · exact Option.some.inj (hv.2.symm.trans hw.2)
    · rintro rfl
      exact Or.inr hw
  · push Not at hc
    simp [hc, (hstep v).owner hc v]

theorem Provenance.member_next (h : Provenance g u past e.before) (hstep : MembershipStep g u e) :
    Member e.after g u ↔ (∃ x ∈ past ++ [e], Created g u x) ∨
      ∃ x, latest g u (past ++ [e]) = some x ∧ Accepted g u x := by
  rw [exists_mem_concat, latest_concat]
  by_cases hcreated : Created g u e
  · simp [hcreated, (hstep.created hcreated).1]
  by_cases hchange : Changes g u e
  · simp only [hcreated, or_false, hchange, if_true, Option.some.injEq, exists_eq_left']
    rcases hchange with haccept | hdrop
    · simp [haccept, (hstep.accepted haccept).1]
    · obtain ⟨hout, howner⟩ := hstep.dropped hdrop
      have hnot : ¬ Accepted g u e := fun ha => hout (hstep.accepted ha).1
      rw [h.creator u]
      simp [hout, howner, hnot]
  · simp only [hcreated, or_false, hchange, if_false, hstep.member hchange hcreated, h.member]

theorem Provenance.pending_next (h : Provenance g u past e.before) (hstep : MembershipStep g u e)
    (hpending : Pending e.after g u) : ∃ earlier j since, past ++ [e] = earlier ++ j :: since ∧ Joined g u j ∧
      ∀ x ∈ since, ¬ Accepted g u x := by
  rcases hstep.pending hpending with hjoin | ⟨hbefore, hnot⟩
  · exact ⟨past, e, [], rfl, hjoin, by simp⟩
  · obtain ⟨earlier, j, since, rfl, hj, hsince⟩ := h.pending hbefore
    refine ⟨earlier, j, since ++ [e], by simp, hj, fun x hx => ?_⟩
    rcases List.mem_append.mp hx with hx | hx
    · exact hsince x hx
    · rwa [List.mem_singleton.mp hx]

theorem provenance (ssl : OpenSsl) (g u : Bytes) (calls : List Call) :
    Provenance g u (Machine.events (step ssl) empty calls) (Machine.run (step ssl) empty calls) := by
  refine Machine.history (empty_provenance g u) (fun past t c _ h => ?_) calls
  have hstep := fun v => (@apply_effect ssl t c).membershipStep g v
  exact ⟨h.creator_next (e := Machine.event (step ssl) t c) hstep, h.member_next (hstep u),
    h.pending_next (hstep u)⟩

end History

/-- Membership is decided by the history: a user is in because they created the group or because the
latest change about them is an acceptance; only the creator accepts and removes; and every acceptance
answers a join request of that user that no acceptance has answered before. -/
theorem membership_provenance (ssl : OpenSsl) (calls : List Call) (g u : Bytes) :
    (Member (Machine.run (step ssl) empty calls) g u ↔
      (∃ e ∈ Machine.events (step ssl) empty calls, Created g u e) ∨
      ∃ e, latest g u (Machine.events (step ssl) empty calls) = some e ∧ Accepted g u e) ∧
    (∀ past e future, Machine.events (step ssl) empty calls = past ++ e :: future →
      Accepted g u e ∨ Removed g u e →
      ∃ creator, By e creator ∧ ∀ v, (∃ c ∈ past, Created g v c) ↔ v = creator) ∧
    (∀ past e future, Machine.events (step ssl) empty calls = past ++ e :: future → Accepted g u e →
      ∃ earlier j since, past = earlier ++ j :: since ∧ Joined g u j ∧ ∀ a ∈ since, ¬ Accepted g u a) := by
  refine ⟨(provenance ssl g u calls).member, ?_, ?_⟩
  · intro past e future hsplit hrule
    obtain ⟨before, c, after, -, rfl, rfl, -⟩ := Machine.events_split hsplit
    obtain ⟨creator, hby, howner⟩ := ((apply_effect _ c).membershipStep g u).ruled hrule
    refine ⟨creator, hby, fun v => ?_⟩
    rw [(provenance ssl g u before).creator v]
    exact ⟨fun hv => hv.unique howner, fun hv => hv ▸ howner⟩
  · intro past e future hsplit haccept
    obtain ⟨before, c, after, -, rfl, rfl, -⟩ := Machine.events_split hsplit
    exact (provenance ssl g u before).pending (((apply_effect _ c).membershipStep g u).accepted haccept).2

end TorrentAtlas.TrackerState
