import TorrentAtlas.Client
import TorrentAtlas.CommandFidelity

/-!
# What stays withdrawn

After an accepted `logout`, `leave_group` or `stop_share` the client removes its own
entries, as it has typed their names. Entries come back in three places: an upload,
and the two steps of a download that add what it has.
-/
namespace TorrentAtlas

open Encoding Crypto

theorem PeerServer.respond_absent {ssl : OpenSsl} {peerKey : Bytes} {files : SharedFiles} {disk : Disk} {now : Int}
    {random request group name : Bytes} (habsent : files.find group name = none)
    (hfor : ∀ access, authenticate ssl peerKey now request = some access →
      access.ticket.group = group ∧ access.ticket.file = name) :
    respond ssl peerKey files disk now random request = PeerProtocol.DENIED := by
  unfold respond
  split
  · rfl
  · next access haccess =>
    obtain ⟨rfl, rfl⟩ := hfor access haccess
    simp only [serve, habsent]

theorem Download.step_add {d : Download} {ssl : OpenSsl} {view : Download.View} {action : Download.Action}
    {file : LocalFile} (h : (d.step ssl view action).2 = .add file) :
    (∃ input, action = .main input) ∧ (d.phase = .publishing ∨ d.phase = .adding) := by
  have hintent := (@step_intent d ssl view action).resolve_left (by simp [h, Effect.intent])
  rw [h] at hintent
  obtain ⟨hmain, ⟨hphase, -⟩ | ⟨hphase, -⟩⟩ := intent_adds hintent.symm
  · exact ⟨hmain, Or.inl hphase⟩
  · exact ⟨hmain, Or.inr hphase⟩

namespace Client

/-- The files that the tracker stops serving when it accepts a request with these words. -/
def Withdraws (request : List Bytes) (group name : Bytes) : Prop :=
  request = [lit "logout"] ∨ request = [lit "leave_group", group] ∨
    ∃ hexName, request = [lit "stop_share", group, hexName] ∧ fromHex hexName = some name

/-- The files whose entries the client removes for a typed command. -/
def Mirrors (command : CommandLine) (group name : Bytes) : Prop :=
  command.name = lit "logout" ∨ command.name = lit "leave_group" ∧ command.args.head? = some group ∨
    command.name = lit "stop_share" ∧ command.args.take 2 = [group, name]

instance (command : CommandLine) (group name : Bytes) : Decidable (Mirrors command group name) :=
  inferInstanceAs (Decidable (_ ∨ _))

/-- The file of the upload or download that the user types. -/
def issued (c : Client) : Action → Option (Bytes × Bytes)
  | .type line =>
    if c.prompt = .reading then
      match execute (CommandLine.parse line) with
      | .uploadFile group path => some (group, filename path)
      | .start group name _ => some (group, name)
      | _ => none
    else none
  | _ => none

/-- The file whose entry a download adds, before it fetches the missing pieces or when it is complete. -/
def readded (c : Client) : Action → Option (Bytes × Bytes)
  | .main i _ =>
    match c.downloads[i]? with
    | some t =>
      if t.download.phase = .publishing ∨ t.download.phase = .adding then some (t.download.group, t.download.name)
      else none
    | none => none
  | _ => none

/-- The command that the client is about to mirror. -/
def Prompt.mirrored : Prompt → Option CommandLine
  | .mirroring command => some command
  | _ => none

/-- The client is about to remove the file's entry. -/
def Removing (group name : Bytes) (c : Client) : Prop := ∃ command ∈ c.prompt.mirrored, Mirrors command group name

instance (group name : Bytes) (c : Client) : Decidable (Removing group name c) :=
  inferInstanceAs (Decidable (∃ command ∈ c.prompt.mirrored, Mirrors command group name))

/-- A peer's request with a ticket for the file, which the peer server accepts. -/
def Action.asksFor (ssl : OpenSsl) (host : Host) (group name : Bytes) : Action → Bool
  | .peer now _ _ request => (PeerServer.authenticate ssl host.peerKey now request).any
      (fun access => access.ticket.group = group ∧ access.ticket.file = name)
  | _ => false

/-- No download adds the file's entry again, unless it is about to be removed, and no peer gets the file before it is. -/
structure Undisturbed (ssl : OpenSsl) (host : Host) (group name : Bytes) (c : Client) (action : Action) : Prop where
  added : ¬ Removing group name c → readded c action ≠ some (group, name)
  overtaken : Removing group name c → c.shared.find group name ≠ none → action.asksFor ssl host group name = false

instance (ssl : OpenSsl) (host : Host) (group name : Bytes) (c : Client) (action : Action) :
    Decidable (Undisturbed ssl host group name c action) :=
  decidable_of_iff ((¬ Removing group name c → readded c action ≠ some (group, name)) ∧
      (Removing group name c → c.shared.find group name ≠ none → action.asksFor ssl host group name = false))
    ⟨fun h => ⟨h.1, h.2⟩, fun h => ⟨h.added, h.overtaken⟩⟩

/-- The file that the prompt is about to upload. -/
def Prompt.uploads : Prompt → Option (Bytes × Bytes)
  | .opening group path | .hashing group path _ _ | .sharing group path _ | .adding group path _ =>
    some (group, filename path)
  | _ => none

variable {ssl : OpenSsl} {host : Host} {c : Client} {group name : Bytes}

theorem find_mirror {shared : SharedFiles} {command : CommandLine} (h : Mirrors command group name) :
    (mirror shared command).find group name = none := by
  unfold mirror
  rcases h with hname | ⟨hname, hargs⟩ | ⟨hname, hargs⟩
  · rw [hname, if_neg (by decide), if_neg (by decide), if_pos rfl]
    rfl
  · obtain ⟨rest, hargs⟩ := List.head?_eq_some_iff.mp hargs
    rw [hname, if_neg (by decide), if_pos rfl, hargs]
    simp
  · obtain ⟨rest, hrest⟩ : ∃ rest, command.args = group :: name :: rest :=
      ⟨_, by rw [← List.take_append_drop 2 command.args, hargs]; rfl⟩
    rw [hname, if_pos rfl, hrest]
    simp

/-- A command whose words reach the tracker as they were typed is mirrored as the tracker understands it. -/
theorem mirrors_of_intact {command : CommandLine} (hforward : execute command = .forwardToTracker)
    (hintact : Intact command) (h : Withdraws (words (forwardRequest command)) group name) :
    Mirrors command group name := by
  rw [Intact, hforward] at hintact
  have hwords : words (forwardRequest command) = command.name :: carriedArgs command := by
    rw [words_forwardRequest, List.forall_mem_cons, forall_carriedArgs]
    exact hintact
  rw [hwords] at h
  rcases h with h | h | ⟨hexName, h, hname⟩
  · exact Or.inl (List.cons.inj h).1
  · obtain ⟨hcommand, hargs⟩ := List.cons.inj h
    have hplain : carriedArgs command = command.args := by
      refine List.ext_getElem? fun i => ?_
      rw [carriedArgs, List.getElem?_mapIdx, hcommand]
      cases command.args[i]? with
      | none => rfl
      | some arg => rw [Option.map_some, if_neg fun h => absurd h.1 (by decide)]
    exact Or.inr (Or.inl ⟨hcommand, by rw [← hplain, hargs]; rfl⟩)
  · obtain ⟨hcommand, hargs⟩ := List.cons.inj h
    rw [carriedArgs, hcommand] at hargs
    have hlength : command.args.length = 2 := by simpa using congrArg List.length hargs
    obtain ⟨first, second, hlist⟩ := List.length_eq_two.mp hlength
    simp only [hlist, List.mapIdx_cons, List.mapIdx_nil, Nat.zero_ne_one, if_false, true_and, zero_add,
      if_true, List.cons.injEq, and_true] at hargs
    obtain ⟨rfl, rfl⟩ := hargs
    rw [fromHex_toHex] at hname
    exact Or.inr (Or.inr ⟨hcommand, by rw [hlist, Option.some.inj hname]; rfl⟩)

theorem find_mirror_absent {shared : SharedFiles} (command : CommandLine) (h : shared.find group name = none) :
    (mirror shared command).find group name = none := by
  unfold mirror
  split_ifs
  · split
    · simp [h]
    · exact h
  · split
    · simp [h]
    · exact h
  · rfl
  · exact h

/-- Adding an entry and marking a piece are the only effects on the table. -/
theorem apply_shared (i : Nat) (t : Task) (d : Download) (effect : Download.Effect)
    (hadd : ∀ file, effect = .add file → (group, name) ≠ (d.group, d.name)) (h : c.shared.find group name = none) :
    (c.apply host i t d effect).shared.find group name = none := by
  cases effect with
  | add file =>
    change (c.shared.add d.group d.name file).find group name = none
    rw [SharedFiles.find_add, if_neg (hadd file rfl)]
    exact h
  | markAvailable piece =>
    change (c.shared.markAvailable d.group d.name piece).find group name = none
    rw [SharedFiles.find_markAvailable, h]
    simp
  | _ => exact h

theorem downloadStep_shared {i : Nat} {a : Download.Action} (h : c.shared.find group name = none)
    (hadd : ∀ t, c.downloads[i]? = some t → t.download.group = group → t.download.name = name →
      (∃ input, a = .main input) → ¬ (t.download.phase = .publishing ∨ t.download.phase = .adding)) :
    (c.downloadStep ssl host i a).1.shared.find group name = none := by
  unfold downloadStep
  split
  · exact h
  · next t hat =>
    dsimp only
    have hsubject := @Download.step_subject t.download ssl (c.view host t) a
    refine apply_shared i t _ _ (fun file hfile hkey => ?_) h
    obtain ⟨hmain, hphase⟩ := Download.step_add hfile
    obtain ⟨hgroup, hname⟩ := Prod.mk.inj hkey
    refine hadd t hat ?_ ?_ hmain hphase
    · rw [hgroup]
      exact (congrArg (fun s => s.1) hsubject).symm
    · rw [hname]
      exact (congrArg (fun s => s.2.1) hsubject).symm

theorem typed_shared (line : Bytes) : (c.typed line).1.shared = c.shared := by
  have hcases := typed_cases c line
  generalize c.typed line = result at hcases ⊢
  cases hcases <;> rfl

/-- The prompt changes the table when it adds an upload and when it mirrors a withdrawal. -/
theorem promptStep_shared (input : Input) : (c.promptStep ssl host input).1.shared = c.shared ∨
    (∃ group path metadata, c.prompt = .adding group path metadata ∧ (c.promptStep ssl host input).1.shared =
      c.shared.add group (filename path) ⟨path, metadata, List.replicate metadata.pieceCount true⟩) ∨
    ∃ command, c.prompt = .mirroring command ∧ (c.promptStep ssl host input).1.shared = mirror c.shared command := by
  have hcases := promptStep_cases ssl host c input
  generalize c.promptStep ssl host input = result at hcases ⊢
  cases hcases with
  | add hprompt => exact Or.inr (Or.inl ⟨_, _, _, hprompt, rfl⟩)
  | mirror hprompt => exact Or.inr (Or.inr ⟨_, hprompt, rfl⟩)
  | _ => exact Or.inl rfl

/-- An upload goes on with the file it began with. -/
theorem promptStep_uploads {input : Input} {file : Bytes × Bytes}
    (h : (c.promptStep ssl host input).1.prompt.uploads = some file) : c.prompt.uploads = some file := by
  have hcases := promptStep_cases ssl host c input
  generalize c.promptStep ssl host input = result at hcases h
  cases hcases with
  | stay => exact h
  | opened hprompt | hashOn hprompt | hashed hprompt | shared hprompt =>
    rw [hprompt]
    exact h
  | _ => simp [Prompt.uploads] at h

/-- A typed upload is one of an issued file. -/
theorem typed_uploads {line : Bytes} {file : Bytes × Bytes} (hprompt : c.prompt = .reading)
    (h : (c.typed line).1.prompt.uploads = some file) : issued c (.type line) = some file := by
  have hcases := typed_cases c line
  generalize c.typed line = result at hcases h
  cases hcases with
  | upload hexecute => simpa [issued, hprompt, hexecute, Prompt.uploads] using h
  | _ => simp [hprompt, Prompt.uploads] at h

/-- The file has no entry, or is about to lose it, and the prompt is not about to add one. -/
structure Gone (group name : Bytes) (c : Client) : Prop where
  entry : c.shared.find group name = none ∨ Removing group name c
  prompt : c.prompt.uploads ≠ some (group, name)

theorem Gone.typed (h : Gone group name c) {line : Bytes} (hprompt : c.prompt = .reading)
    (hissued : issued c (.type line) ≠ some (group, name)) : Gone group name (c.typed line).1 := by
  refine ⟨Or.inl ?_, fun huploads => hissued (typed_uploads hprompt huploads)⟩
  rw [typed_shared]
  exact h.entry.resolve_right fun ⟨command, hmirrored, _⟩ => by simp [hprompt, Prompt.mirrored] at hmirrored

theorem Gone.promptStep (h : Gone group name c) (input : Input) : Gone group name (c.promptStep ssl host input).1 := by
  refine ⟨?_, fun huploads => h.prompt (promptStep_uploads huploads)⟩
  left
  rcases h.entry with habsent | ⟨command, hmirrored, hmirrors⟩
  · rcases @promptStep_shared ssl host c input with hsame | ⟨g, path, metadata, hadding, hadd⟩ | ⟨command, -, hmirror⟩
    · rw [hsame]
      exact habsent
    · rw [hadd, SharedFiles.find_add, if_neg]
      · exact habsent
      · intro hkey
        obtain ⟨rfl, rfl⟩ := Prod.mk.inj hkey
        exact h.prompt (by rw [hadding]; rfl)
    · rw [hmirror]
      exact find_mirror_absent command habsent
  · have hmirroring : c.prompt = .mirroring command := by
      generalize c.prompt = prompt at hmirrored
      cases prompt <;> simp [Prompt.mirrored] at hmirrored
      rw [hmirrored]
    simp only [Client.promptStep, hmirroring]
    exact find_mirror hmirrors

theorem Gone.downloadStep (h : Gone group name c) {i : Nat} {a : Download.Action}
    (hadd : ¬ Removing group name c → ∀ t, c.downloads[i]? = some t → t.download.group = group →
      t.download.name = name → (∃ input, a = .main input) →
        ¬ (t.download.phase = .publishing ∨ t.download.phase = .adding)) :
    Gone group name (c.downloadStep ssl host i a).1 := by
  have hprompt := @downloadStep_prompt ssl host c i a
  refine ⟨?_, by rw [hprompt]; exact h.prompt⟩
  by_cases hremoving : Removing group name c
  · right
    unfold Removing
    rw [hprompt]
    exact hremoving
  · left
    exact downloadStep_shared (h.entry.resolve_right hremoving) (hadd hremoving)

/-- What one step keeps. -/
theorem Gone.step (h : Gone group name c) {action : Action} (hissued : issued c action ≠ some (group, name))
    (hundisturbed : Undisturbed ssl host group name c action) : Gone group name (c.step ssl host action).1 := by
  cases action with
  | type line =>
    simp only [Client.step]
    split
    · next hprompt => exact h.typed hprompt hissued
    · exact h
  | prompt input => exact h.promptStep input
  | main i input =>
    refine h.downloadStep fun hremoving t hat hgroup hname _ hphase => hundisturbed.added hremoving ?_
    simp [readded, hat, hphase, hgroup, hname]
  | worker i k input =>
    refine h.downloadStep ?_
    rintro - t - - - ⟨input', hmain⟩
    simp at hmain
  | peer => exact h

/-- Peers that ask for the file are denied. -/
theorem Gone.denied (h : Gone group name c) {now : Int} {io : List Transfer} {random request : Bytes}
    (hundisturbed : Undisturbed ssl host group name c (.peer now io random request))
    (hfor : ∀ access, PeerServer.authenticate ssl host.peerKey now request = some access →
      access.ticket.group = group ∧ access.ticket.file = name) :
    (c.step ssl host (.peer now io random request)).2 = .answer PeerProtocol.DENIED := by
  simp only [Client.step]
  cases haccess : PeerServer.authenticate ssl host.peerKey now request with
  | none => simp only [PeerServer.respond, haccess]
  | some access =>
    have habsent : c.shared.find group name = none := by
      by_contra hentry
      have hquiet := hundisturbed.overtaken (h.entry.resolve_left hentry) hentry
      simp [Action.asksFor, haccess, hfor access haccess] at hquiet
    rw [PeerServer.respond_absent habsent hfor]

/-- Once the tracker has answered OK to a command that the client mirrors, peers are denied each file that the command
names, and each that had no entry, until the user asks for it again, unless a download adds its entry again or a peer
with a ticket for it overtakes the removal. -/
theorem withdrawn_is_denied (ssl : OpenSsl) (host : Host) (c : Client) (command : CommandLine) (reply : Option Bytes)
    (hprompt : c.prompt = .forwarding command) (hok : isOk reply = true)
    (group name : Bytes) (hmirrors : c.shared.find group name ≠ none → Mirrors command group name)
    (actions : List Action)
    (huntil : Machine.Along (Client.step ssl host) (fun c action => issued c action ≠ some (group, name))
      (c.step ssl host (.prompt (.reply reply))).1 actions)
    (hundisturbed : Machine.Along (Client.step ssl host) (Undisturbed ssl host group name)
      (c.step ssl host (.prompt (.reply reply))).1 actions) :
    ∀ e ∈ Machine.events (Client.step ssl host) (c.step ssl host (.prompt (.reply reply))).1 actions,
      ∀ now io random request, e.input = .peer now io random request →
        (∀ access, PeerServer.authenticate ssl host.peerKey now request = some access →
          access.ticket.group = group ∧ access.ticket.file = name) →
        e.output = .answer PeerProtocol.DENIED := by
  have hstart : Gone group name (c.step ssl host (.prompt (.reply reply))).1 := by
    have hnext : (c.step ssl host (.prompt (.reply reply))).1 = { c with prompt := .mirroring command } := by
      simp [Client.step, Client.promptStep, hprompt, hok]
    rw [hnext]
    refine ⟨?_, by simp [Prompt.uploads]⟩
    by_cases habsent : c.shared.find group name = none
    · exact Or.inl habsent
    · exact Or.inr ⟨command, rfl, hmirrors habsent⟩
  intro e he now io random request hinput hfor
  obtain ⟨hgone, hallowed, hevent⟩ := Machine.events_along hstart
    (fun s a hs ha => hs.step ha.1 ha.2) (huntil.and hundisturbed) e he
  rw [hevent, hinput]
  rw [hinput] at hallowed
  exact hgone.denied hallowed.2 hfor

section Example

open PeerServer PeerProtocol

def servingHost : Host := ⟨⟨lit "10.0.0.1", 6881⟩, examplePeerKey, id⟩

def servingRecording : Recording :=
  { exchange with sha1 := [(lit "hello", ofHex 20 0xaaf4c61ddcc5e8a2dabede0f3b482cd9aea9434d)] }

def helloReply : Input :=
  exampleReply (lit "5 aaf4c61ddcc5e8a2dabede0f3b482cd9aea9434d aaf4c61ddcc5e8a2dabede0f3b482cd9aea9434d")

def leftReply : Option Bytes := some (lit "OK left group\t9")

/-- Bob's request for the file. -/
def bobAsks : Action := .peer 1100 [] exampleReplyNonce (encode (lit "21|626f62.67.66.1300") exampleMessage)

/-- The user types `leave_group g` when these actions have been taken. -/
def leaves (actions : List Action) : Client :=
  Machine.run (Client.step servingRecording.replay servingHost) (init noFiles)
    (startsDownload (lit "download_file g f X") helloReply ++ actions ++ [.type (lit "leave_group g")])

/-- The client as the tracker's OK arrives. -/
def left (actions : List Action) : Client :=
  ((leaves actions).step servingRecording.replay servingHost (.prompt (.reply leftReply))).1

theorem of_bobAsks {access : Access} (h : authenticate servingRecording.replay examplePeerKey 1100
      (encode (lit "21|626f62.67.66.1300") exampleMessage) = some access) :
    access.ticket.group = lit "g" ∧ access.ticket.file = lit "f" := by
  have hticket : (authenticate servingRecording.replay examplePeerKey 1100
      (encode (lit "21|626f62.67.66.1300") exampleMessage)).map Access.ticket = some exampleTicket := by decide +kernel
  rw [h] at hticket
  rw [Option.some.inj hticket]
  exact ⟨rfl, rfl⟩

theorem words_leave : words (forwardRequest ⟨lit "leave_group", [lit "g"]⟩) = [lit "leave_group", lit "g"] := by
  decide +kernel

/-- If the download is complete when the user leaves, Bob is denied. -/
theorem withdrawn_is_denied_bob :
    (Client.step servingRecording.replay servingHost ((left (prepares ++ finishes (lit "hello"))).step
      servingRecording.replay servingHost (.prompt .ok)).1 bobAsks).2 = .answer DENIED := by
  refine withdrawn_is_denied servingRecording.replay servingHost (leaves (prepares ++ finishes (lit "hello")))
    ⟨lit "leave_group", [lit "g"]⟩ leftReply (by decide +kernel) (by decide +kernel) (lit "g") (lit "f")
    (fun _ => Or.inr (Or.inl ⟨rfl, rfl⟩)) [.prompt .ok, bobAsks] (by decide +kernel) (by decide +kernel)
    (Machine.event (Client.step servingRecording.replay servingHost) ((left (prepares ++ finishes (lit "hello"))).step
      servingRecording.replay servingHost (.prompt .ok)).1 bobAsks)
    (List.mem_cons_of_mem _ (List.mem_singleton_self _)) 1100 [] exampleReplyNonce _ rfl (fun access => of_bobAsks)

/-- The download is still fetching when the user leaves; it completes, and Bob is served. -/
theorem withdrawn_is_served : (leaves prepares).prompt = .forwarding ⟨lit "leave_group", [lit "g"]⟩ ∧
    isOk leftReply = true ∧ Withdraws (words (forwardRequest ⟨lit "leave_group", [lit "g"]⟩)) (lit "g") (lit "f") ∧
    Machine.Along (Client.step servingRecording.replay servingHost)
      (fun c action => issued c action ≠ some (lit "g", lit "f")) (left prepares)
      (.prompt .ok :: finishes (lit "hello") ++ [bobAsks]) ∧
    ((Machine.run (Client.step servingRecording.replay servingHost) (left prepares)
      (.prompt .ok :: finishes (lit "hello"))).step servingRecording.replay servingHost bobAsks).2 ≠ .answer DENIED :=
  ⟨by decide +kernel, by decide +kernel, Or.inr (Or.inl words_leave), by decide +kernel, by decide +kernel⟩

end Example

end Client

end TorrentAtlas
