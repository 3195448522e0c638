import TorrentAtlas.Encoding
import TorrentAtlas.Library.OrderedMap

/-!
# Files

Directory entries name files and files have contents, as open files keep theirs when
a path is renamed or taken by another file. Paths lead to directory entries by a
fixed function, since nobody here makes links or directories.
-/
namespace TorrentAtlas

open Encoding

/-- The files of a computer: the file each directory entry names, what each file contains, and the directories. -/
structure FileSystem where
  names : OrderedMap Bytes Nat
  contents : List Bytes
  directories : List Bytes
  named : ∀ entry n, names.find entry = some n → n < contents.length

namespace FileSystem

-- `resolve` takes a path to the directory entry it leads to.
variable (resolve : Bytes → Bytes) (files : FileSystem)

def lookup (path : Bytes) : Option Nat := files.names.find (resolve path)

/-- The contents of an open file. -/
def read (file : Option Nat) : Bytes := (file.bind (fun n => files.contents[n]?)).getD []

/-- The contents of the file at a path. -/
def contentsAt (path : Bytes) : Option Bytes := (files.lookup resolve path).map (fun n => files.read (some n))

theorem named_insert (entry : Bytes) {contents : List Bytes} (h : files.contents.length < contents.length) :
    ∀ e n, (files.names.insert entry files.contents.length).find e = some n → n < contents.length := by
  intro e n hn
  rw [OrderedMap.find_insert] at hn
  split at hn
  · rw [← Option.some.inj hn]
    exact h
  · exact Nat.lt_trans (files.named e n hn) h

/-- `open` with `O_CREAT`. -/
def create (path : Bytes) : FileSystem × Nat :=
  match files.lookup resolve path with
  | some n => (files, n)
  | none =>
    ({ files with
        names := files.names.insert (resolve path) files.contents.length
        contents := files.contents ++ [[]]
        named := files.named_insert (resolve path) (by simp) },
      files.contents.length)

def write (file : Option Nat) (contents : Bytes) : FileSystem :=
  match file with
  | some n =>
    { files with
      contents := files.contents.set n contents
      named := by simpa using files.named }
  | none => files

theorem named_rename {source : Bytes} (target : Bytes) {n : Nat} (h : files.names.find source = some n) :
    ∀ e m, ((files.names.erase source).insert target n).find e = some m → m < files.contents.length := by
  intro e m hm
  rw [OrderedMap.find_insert] at hm
  split at hm
  · rw [← Option.some.inj hm]
    exact files.named source n h
  · rw [OrderedMap.find_erase] at hm
    split at hm
    · simp at hm
    · exact files.named e m hm

def rename (source target : Bytes) : FileSystem :=
  match h : files.lookup resolve source with
  | some n =>
    { files with
      names := (files.names.erase (resolve source)).insert (resolve target) n
      named := files.named_rename (resolve target) h }
  | none => files

def isDirectory (path : Bytes) : Bool := files.directories.contains (resolve path)

def existsAt (path : Bytes) : Bool := (files.lookup resolve path).isSome || files.isDirectory resolve path

section Lemmas

variable {resolve : Bytes → Bytes} {files : FileSystem}

/-- Opening a file gives no other path a file. -/
theorem lookup_create {path p : Bytes} (h : files.lookup resolve path = none → resolve p ≠ resolve path) :
    (files.create resolve path).1.lookup resolve p = files.lookup resolve p := by
  unfold create
  split
  · rfl
  · next hnone => simp only [lookup, OrderedMap.find_insert, if_neg (h hnone)]

/-- A new file reads as one that was never there. -/
@[simp] theorem read_create (path : Bytes) (file : Option Nat) :
    (files.create resolve path).1.read file = files.read file := by
  unfold create
  split
  · rfl
  · cases file with
    | none => rfl
    | some n =>
      simp only [read, Option.bind_some]
      rw [List.getElem?_append]
      split
      · rfl
      · next hlast =>
        rw [List.getElem?_eq_none (Nat.le_of_not_lt hlast)]
        cases n - files.contents.length <;> rfl

theorem length_create_le (path : Bytes) : files.contents.length ≤ (files.create resolve path).1.contents.length := by
  unfold create
  split
  · exact Nat.le_refl _
  · simp

theorem create_lt (path : Bytes) : (files.create resolve path).2 < (files.create resolve path).1.contents.length := by
  unfold create
  split
  · next n hn => exact files.named _ n hn
  · simp

@[simp] theorem lookup_write (file : Option Nat) (contents path : Bytes) :
    (files.write file contents).lookup resolve path = files.lookup resolve path := by
  cases file <;> rfl

@[simp] theorem length_write (file : Option Nat) (contents : Bytes) :
    (files.write file contents).contents.length = files.contents.length := by
  cases file with
  | none => rfl
  | some n => simp [write]

theorem read_write {n : Nat} (hn : n < files.contents.length) (contents : Bytes) (file : Option Nat) :
    (files.write (some n) contents).read file = if file = some n then contents else files.read file := by
  cases file with
  | none => rfl
  | some m =>
    simp only [read, write, Option.bind_some, Option.some.injEq]
    by_cases hm : n = m
    · subst hm
      rw [List.getElem?_set_self hn, if_pos rfl]
      rfl
    · rw [List.getElem?_set_ne hm, if_neg (Ne.symm hm)]

theorem lookup_rename {source : Bytes} (target : Bytes) {n : Nat} (h : files.lookup resolve source = some n)
    (path : Bytes) : (files.rename resolve source target).lookup resolve path =
      if resolve path = resolve target then some n
      else if resolve path = resolve source then none else files.lookup resolve path := by
  have hnames : (files.rename resolve source target).names =
      (files.names.erase (resolve source)).insert (resolve target) n := by
    unfold rename
    split
    · next m hm =>
      obtain rfl := Option.some.inj (hm.symm.trans h)
      rfl
    · next hnone => simp [hnone] at h
  simp only [lookup, hnames, OrderedMap.find_insert, OrderedMap.find_erase]
  split_ifs <;> rfl

@[simp] theorem contents_rename (source target : Bytes) :
    (files.rename resolve source target).contents = files.contents := by
  unfold rename
  split <;> rfl

@[simp] theorem read_rename (source target : Bytes) (file : Option Nat) :
    (files.rename resolve source target).read file = files.read file := by
  simp only [read, contents_rename]

theorem contentsAt_eq_some {path contents : Bytes} (h : files.contentsAt resolve path = some contents) :
    ∃ n, files.lookup resolve path = some n ∧ contents = files.read (some n) := by
  obtain ⟨n, hn, heq⟩ := Option.map_eq_some_iff.mp h
  exact ⟨n, hn, heq.symm⟩

end Lemmas

end FileSystem

end TorrentAtlas
