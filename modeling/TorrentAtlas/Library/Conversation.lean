import Mathlib.Data.List.Basic
import Mathlib.Tactic.Common

/-!
# Two programs at the ends of a connection

A program sends and receives messages and is told when a call fails. A message travels
as a piece of a stream: a call may be cut short and leave a part of it, so what one end
has sent and what the other receives are two things. Both ends of a connection are given
each other's streams. If they take turns, and each gives up when a call fails, then the
pair is understood from its messages alone.
-/

/-- A program at one end of a connection; a call that fails passes on `false` or `none`. -/
inductive Talk (M α : Type)
  | done (a : α)
  | send (m : M) (next : Bool → Talk M α)
  | receive (next : Option M → Talk M α)

/-- What a call to send leaves: whether it succeeded, what is on the stream, and the calls to come. -/
structure Put (β ι : Type) where
  ok : Bool
  written : List β
  io : ι

/-- What a call to receive leaves: the message, what is still on the stream, and the calls to come. -/
structure Got (M β ι : Type) where
  message : Option M
  rest : List β
  io : ι

/-- How messages become parts of a stream. The calls' outcomes are in `ι`; in a calm one none fails. -/
structure Transport (M β ι : Type) where
  fits : M → Bool
  frame : M → List β
  put : ι → M → Put β ι
  get : ι → List β → Got M β ι
  Calm : ι → Prop
  put_ok : ∀ {io m}, (put io m).ok = true → fits m = true ∧ (put io m).written = frame m
  put_failed : ∀ {io m}, (put io m).ok = false → ∀ io', (get io' (put io m).written).message = none
  put_calm : ∀ {io m}, Calm io → fits m = true → (put io m).ok = true
  put_io : ∀ {io m}, Calm io → Calm (put io m).io
  get_nil : ∀ io, (get io []).message = none ∧ (get io []).rest = []
  get_append : ∀ io m rest, fits m = true →
    get io (frame m ++ rest) = ⟨(get io (frame m)).message, (get io (frame m)).rest ++ rest, (get io (frame m)).io⟩
  get_frame : ∀ {io m m'}, fits m = true → (get io (frame m)).message = some m' → m' = m ∧ (get io (frame m)).rest = []
  get_calm : ∀ {io m}, Calm io → fits m = true → (get io (frame m)).message = some m
  get_io : ∀ {io stream}, Calm io → Calm (get io stream).io

namespace Talk

variable {M α β γ ι : Type}

protected def bind : Talk M α → (α → Talk M β) → Talk M β
  | done a, f => f a
  | send m next, f => send m (fun ok => (next ok).bind f)
  | receive next, f => receive (fun m => (next m).bind f)

instance : Monad (Talk M) where
  pure := done
  bind := Talk.bind

/-- One message to the other end. -/
def say (m : M) : Talk M Bool := send m done

/-- One message from the other end. -/
def hear : Talk M (Option M) := receive done

@[simp] theorem pure_eq (a : α) : (pure a : Talk M α) = done a := rfl
@[simp] theorem done_bind (a : α) (f : α → Talk M β) : (done a >>= f) = f a := rfl
@[simp] theorem say_bind (m : M) (f : Bool → Talk M β) : (say m >>= f) = send m f := rfl
@[simp] theorem hear_bind (f : Option M → Talk M β) : (hear >>= f) = receive f := rfl
@[simp] theorem send_bind (m : M) (next : Bool → Talk M α) (f : α → Talk M β) :
    (send m next >>= f) = send m (fun ok => next ok >>= f) := rfl
@[simp] theorem receive_bind (next : Option M → Talk M α) (f : α → Talk M β) :
    (receive next >>= f) = receive (fun m => next m >>= f) := rfl

/-- A failed call ends the conversation, with a value that satisfies `P`. -/
def Careful (P : α → Prop) : Talk M α → Prop
  | done _ => True
  | send _ next => (∃ a, P a ∧ next false = done a) ∧ (next true).Careful P
  | receive next => (∃ a, P a ∧ next none = done a) ∧ ∀ m, (next (some m)).Careful P

/-- What the program returns satisfies `Q` if nothing more arrives. -/
def Alone (Q : α → Prop) : Talk M α → Prop
  | done a => Q a
  | send _ next => ∀ ok, (next ok).Alone Q
  | receive next => (next none).Alone Q

/-- What two programs return satisfies `Q`, whichever calls fail. They take turns: neither
waits for a message while the other one does. -/
def Ends (fits : M → Bool) (Q : α → β → Prop) : Talk M α → Talk M β → Prop
  | done a, other => other.Alone (Q a)
  | send _ next, done b => ∀ ok, (next ok).Alone (Q · b)
  | receive next, done b => (next none).Alone (Q · b)
  | send m next, receive next' =>
    (fits m = true → Ends fits Q (next true) (next' (some m))) ∧
      ∀ ok, (next ok).Alone (fun a => (next' none).Alone (Q a))
  | receive next, send m next' =>
    (fits m = true → Ends fits Q (next (some m)) (next' true)) ∧
      ∀ ok, (next none).Alone (fun a => (next' ok).Alone (Q a))
  | send _ _, send _ _ => False
  | receive _, receive _ => False

/-- What the program returns when no call fails and nothing more arrives. -/
def finish (fits : M → Bool) : Talk M α → α
  | done a => a
  | send m next => (next (fits m)).finish fits
  | receive next => (next none).finish fits

/-- What two programs that take turns return when no call fails. -/
def settle (fits : M → Bool) : Talk M α → Talk M β → Option (α × β)
  | done a, other => some (a, other.finish fits)
  | send m next, done b => some ((next (fits m)).finish fits, b)
  | receive next, done b => some ((next none).finish fits, b)
  | send m next, receive next' =>
    if fits m then settle fits (next true) (next' (some m))
    else some ((next false).finish fits, (next' none).finish fits)
  | receive next, send m next' =>
    if fits m then settle fits (next (some m)) (next' true)
    else some ((next none).finish fits, (next' false).finish fits)
  | send _ _, send _ _ => none
  | receive _, receive _ => none

/-- A program with the outcomes of its calls and the stream from the other end: what it returns, and its own stream. -/
def across (t : Transport M β ι) : Talk M α → ι → List β → α × List β
  | done a, _, _ => (a, [])
  | send m next, io, stream =>
    let put := t.put io m
    let after := (next put.ok).across t put.io stream
    (after.1, put.written ++ after.2)
  | receive next, io, stream =>
    let got := t.get io stream
    (next got.message).across t got.io got.rest

/-- Two programs that are given each other's streams, and what they return. -/
def Together (t : Transport M γ ι) (here : Talk M α) (there : Talk M β) (io io' : ι) (a : α) (b : β) : Prop :=
  ∃ up down, here.across t io down = (a, up) ∧ there.across t io' up = (b, down)

section Rules

variable {t : Transport M γ ι} {io io' : ι} {here : Talk M α} {there : Talk M β} {a : α} {b : β} {up down : List γ}
  {Q : α → β → Prop} {P : α → Prop} {P' : β → Prop}

theorem Careful.bind {P : α → Prop} {P' : β → Prop} {f : α → Talk M β} {here : Talk M α} (h : here.Careful P)
    (hfailed : ∀ a, P a → ∃ b, P' b ∧ f a = done b) (hf : ∀ a, (f a).Careful P') : (here >>= f).Careful P' := by
  induction here with
  | done a => exact hf a
  | send m next ih =>
    obtain ⟨⟨a, ha, hnext⟩, htrue⟩ := h
    obtain ⟨b, hb, hfa⟩ := hfailed a ha
    exact ⟨⟨b, hb, (congrArg (Talk.bind · f) hnext).trans hfa⟩, ih true htrue⟩
  | receive next ih =>
    obtain ⟨⟨a, ha, hnext⟩, hsome⟩ := h
    obtain ⟨b, hb, hfa⟩ := hfailed a ha
    exact ⟨⟨b, hb, (congrArg (Talk.bind · f) hnext).trans hfa⟩, fun m => ih (some m) (hsome m)⟩

theorem Alone.across (t : Transport M γ ι) (here : Talk M α) {Q : α → Prop} (h : here.Alone Q) (io : ι) :
    Q (here.across t io []).1 := by
  induction here generalizing io with
  | done a => exact h
  | send m next ih => exact ih _ (h _) _
  | receive next ih =>
    obtain ⟨hnone, hrest⟩ := t.get_nil io
    simp only [Talk.across, hnone, hrest]
    exact ih _ h _

theorem finish_across (here : Talk M α) (hcalm : t.Calm io) : (here.across t io []).1 = here.finish t.fits := by
  induction here generalizing io with
  | done a => rfl
  | send m next ih =>
    have hok : (t.put io m).ok = t.fits m := by
      cases hfits : t.fits m with
      | true => exact t.put_calm hcalm hfits
      | false => exact Bool.eq_false_iff.mpr (fun hok => by simp [(t.put_ok hok).1] at hfits)
    simp only [Talk.across, finish, hok]
    exact ih _ (t.put_io hcalm)
  | receive next ih =>
    obtain ⟨hnone, hrest⟩ := t.get_nil io
    simp only [Talk.across, finish, hnone, hrest]
    exact ih _ (t.get_io hcalm)

/-- A message that one program sends while the other waits for it either passes, or ends the conversation. -/
theorem message_cases {m : M} {next : Bool → Talk M α} {next' : Option M → Talk M β}
    (hcareful : (send m next).Careful P)
    (hcareful' : (receive next').Careful P') (hhere : (send m next).across t io down = (a, up))
    (hthere : (receive next').across t io' up = (b, down)) :
    (∃ io₁ io₁' up', t.fits m = true ∧ (next true).across t io₁ down = (a, up') ∧
      (next' (some m)).across t io₁' up' = (b, down) ∧ (t.Calm io → t.Calm io₁) ∧ (t.Calm io' → t.Calm io₁')) ∨
    ∃ ok io₁, next' none = done b ∧ ((next ok).across t io₁ []).1 = a ∧
      (t.Calm io → t.Calm io' → t.fits m = false ∧ next false = done a) := by
  obtain ⟨⟨a', -, ha'⟩, -⟩ := hcareful
  obtain ⟨⟨b', -, hb'⟩, -⟩ := hcareful'
  simp only [across] at hhere hthere
  cases hok : (t.put io m).ok with
  | true =>
    obtain ⟨hfits, hwritten⟩ := t.put_ok hok
    rw [hok, Prod.mk.injEq, hwritten] at hhere
    obtain ⟨ha, rfl⟩ := hhere
    rw [t.get_append _ _ _ hfits] at hthere
    cases hmessage : (t.get io' (t.frame m)).message with
    | none =>
      simp only [hmessage, hb', across, Prod.mk.injEq] at hthere
      obtain ⟨rfl, rfl⟩ := hthere
      refine Or.inr ⟨true, _, hb', ha, fun _ hcalm => ?_⟩
      simp [t.get_calm hcalm hfits] at hmessage
    | some m' =>
      obtain ⟨rfl, hrest⟩ := t.get_frame hfits hmessage
      simp only [hmessage, hrest, List.nil_append] at hthere
      exact Or.inl ⟨_, _, _, hfits, Prod.ext ha rfl, hthere, t.put_io, t.get_io⟩
  | false =>
    rw [hok, ha'] at hhere
    simp only [across, List.append_nil, Prod.mk.injEq] at hhere
    obtain ⟨rfl, rfl⟩ := hhere
    rw [t.put_failed hok io', hb'] at hthere
    simp only [across, Prod.mk.injEq] at hthere
    obtain ⟨rfl, -⟩ := hthere
    refine Or.inr ⟨false, io, hb', by rw [ha']; rfl, fun hcalm _ => ⟨?_, ha'⟩⟩
    exact Bool.eq_false_iff.mpr (fun hfits => by simp [t.put_calm hcalm hfits] at hok)

/-- What is shown of the messages holds of the streams, whichever calls fail. -/
theorem Ends.together (h : Ends t.fits Q here there) (hcareful : here.Careful P) (hcareful' : there.Careful P')
    (htogether : Together t here there io io' a b) : Q a b := by
  obtain ⟨up, down, hhere, hthere⟩ := htogether
  induction here generalizing there io io' up down with
  | done a' =>
    simp only [across, Prod.mk.injEq] at hhere
    obtain ⟨rfl, rfl⟩ := hhere
    have hb := Alone.across t _ h io'
    rwa [hthere] at hb
  | send m next ih =>
    cases there with
    | done b' =>
      simp only [across, Prod.mk.injEq] at hthere
      obtain ⟨rfl, rfl⟩ := hthere
      have ha := Alone.across t (send m next) h io
      rwa [hhere] at ha
    | send => exact h.elim
    | receive next' =>
      rcases message_cases hcareful hcareful' hhere hthere with
        ⟨io₁, io₁', up', hfits, ha, hb, -⟩ | ⟨ok, io₁, hb, ha, -⟩
      · exact ih true (h.1 hfits) hcareful.2 (hcareful'.2 m) _ _ ha hb
      · have hfailed := Alone.across t _ (h.2 ok) io₁
        rw [ha, hb] at hfailed
        exact hfailed
  | receive next ih =>
    cases there with
    | done b' =>
      simp only [across, Prod.mk.injEq] at hthere
      obtain ⟨rfl, rfl⟩ := hthere
      have ha := Alone.across t (receive next) h io
      rwa [hhere] at ha
    | send m next' =>
      rcases message_cases hcareful' hcareful hthere hhere with
        ⟨io₁', io₁, down', hfits, hb, ha, -⟩ | ⟨ok, io₁', ha, hb, -⟩
      · exact ih (some m) (h.1 hfits) (hcareful.2 m) hcareful'.2 _ _ ha hb
      · have hfailed := h.2 ok
        rw [ha] at hfailed
        rw [← hb]
        exact Alone.across t (next' ok) hfailed io₁'
    | receive => exact h.elim

/-- If no call fails, the programs return what their messages settle. -/
theorem settle_together {outcome : α × β} (h : settle t.fits here there = some outcome) (hcareful : here.Careful P)
    (hcareful' : there.Careful P') (hcalm : t.Calm io) (hcalm' : t.Calm io')
    (htogether : Together t here there io io' a b) : (a, b) = outcome := by
  obtain ⟨up, down, hhere, hthere⟩ := htogether
  induction here generalizing there io io' up down with
  | done a' =>
    simp only [across, Prod.mk.injEq] at hhere
    obtain ⟨rfl, rfl⟩ := hhere
    obtain rfl := Option.some.inj h
    rw [← finish_across _ hcalm', hthere]
  | send m next ih =>
    cases there with
    | done b' =>
      simp only [across, Prod.mk.injEq] at hthere
      obtain ⟨rfl, rfl⟩ := hthere
      obtain rfl := Option.some.inj h
      have ha := finish_across (send m next) hcalm
      rw [hhere] at ha
      exact Prod.ext ha rfl
    | send => simp [settle] at h
    | receive next' =>
      rcases message_cases hcareful hcareful' hhere hthere with
        ⟨io₁, io₁', up', hfits, ha, hb, hio, hio'⟩ | ⟨ok, io₁, hb, ha, hlong⟩
      · rw [settle, if_pos hfits] at h
        exact ih true h hcareful.2 (hcareful'.2 m) (hio hcalm) (hio' hcalm') _ _ ha hb
      · obtain ⟨hfits, hfalse⟩ := hlong hcalm hcalm'
        rw [settle, hfits, hfalse, hb] at h
        exact Option.some.inj h
  | receive next ih =>
    cases there with
    | done b' =>
      simp only [across, Prod.mk.injEq] at hthere
      obtain ⟨rfl, rfl⟩ := hthere
      obtain rfl := Option.some.inj h
      have ha := finish_across (receive next) hcalm
      rw [hhere] at ha
      exact Prod.ext ha rfl
    | send m next' =>
      rcases message_cases hcareful' hcareful hthere hhere with
        ⟨io₁', io₁, down', hfits, hb, ha, hio', hio⟩ | ⟨ok, io₁', ha, hb, hlong⟩
      · rw [settle, if_pos hfits] at h
        exact ih (some m) h (hcareful.2 m) hcareful'.2 (hio hcalm) (hio' hcalm') _ _ ha hb
      · obtain ⟨hfits, hfalse⟩ := hlong hcalm' hcalm
        rw [settle, hfits, hfalse, ha] at h
        exact Option.some.inj h
    | receive => simp [settle] at h

/-- Streams for a message and what follows it. -/
theorem message_exists {m : M} {next : Bool → Talk M α} {next' : Option M → Talk M β}
    (hcareful : (send m next).Careful P)
    (hcareful' : (receive next').Careful P') (io io' : ι)
    (hpasses : t.fits m = true → ∀ io₁ io₁', ∃ a b, Together t (next true) (next' (some m)) io₁ io₁' a b) :
    ∃ a b, Together t (send m next) (receive next') io io' a b := by
  obtain ⟨⟨a', -, ha'⟩, -⟩ := hcareful
  obtain ⟨⟨b', -, hb'⟩, -⟩ := hcareful'
  cases hok : (t.put io m).ok with
  | true =>
    obtain ⟨hfits, hwritten⟩ := t.put_ok hok
    cases hmessage : (t.get io' (t.frame m)).message with
    | none =>
      obtain ⟨⟨a, up⟩, hhere⟩ : ∃ r, (next true).across t (t.put io m).io [] = r := ⟨_, rfl⟩
      refine ⟨a, b', t.frame m ++ up, [], ?_, ?_⟩
      · simp only [across, hok, hwritten, hhere]
      · simp only [across, t.get_append _ _ _ hfits, hmessage, hb']
    | some m' =>
      obtain ⟨rfl, hrest⟩ := t.get_frame hfits hmessage
      obtain ⟨a, b, up, down, hhere, hthere⟩ := hpasses hfits (t.put io m').io (t.get io' (t.frame m')).io
      refine ⟨a, b, t.frame m' ++ up, down, ?_, ?_⟩
      · simp only [across, hok, hwritten, hhere]
      · simp only [across, t.get_append _ _ _ hfits, hmessage, hrest, List.nil_append, hthere]
  | false =>
    refine ⟨a', b', (t.put io m).written, [], ?_, ?_⟩
    · simp only [across, hok, ha', List.append_nil]
    · simp only [across, t.put_failed hok, hb']

theorem Together.symm (h : Together t here there io io' a b) : Together t there here io' io b a := by
  obtain ⟨up, down, hhere, hthere⟩ := h
  exact ⟨down, up, hthere, hhere⟩

/-- Whichever calls fail, there are streams that two programs taking turns give each other. -/
theorem Ends.exists_together (h : Ends t.fits Q here there) (hcareful : here.Careful P) (hcareful' : there.Careful P')
    (io io' : ι) : ∃ a b, Together t here there io io' a b := by
  induction here generalizing there io io' with
  | done a' => exact ⟨a', _, [], _, rfl, rfl⟩
  | send m next ih =>
    cases there with
    | done b' => exact ⟨_, b', _, [], rfl, rfl⟩
    | send => exact h.elim
    | receive next' =>
      exact message_exists hcareful hcareful' io io' (fun hfits io₁ io₁' =>
        ih true (h.1 hfits) hcareful.2 (hcareful'.2 m) io₁ io₁')
  | receive next ih =>
    cases there with
    | done b' => exact ⟨_, b', _, [], rfl, rfl⟩
    | send m next' =>
      obtain ⟨b, a, htogether⟩ := message_exists hcareful' hcareful io' io (fun hfits io₁' io₁ => by
        obtain ⟨a, b, hrest⟩ := ih (some m) (h.1 hfits) (hcareful.2 m) hcareful'.2 io₁ io₁'
        exact ⟨b, a, hrest.symm⟩)
      exact ⟨a, b, htogether.symm⟩
    | receive => exact h.elim

end Rules

end Talk
