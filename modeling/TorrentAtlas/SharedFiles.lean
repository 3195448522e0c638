import Mathlib.Data.Prod.Lex
import TorrentAtlas.FileMetadata
import TorrentAtlas.Library.OrderedMap

/-!
# The files a client serves (`client/storage/local_file.hpp`, `shared_files.cpp`)

Entries are keyed by group and file name; each method runs under one lock, so it
is one function of the table.
-/
namespace TorrentAtlas

structure LocalFile where
  path : Bytes
  metadata : FileMetadata
  /-- `available[i]`: piece `i` is on disk and verified. -/
  available : List Bool
  deriving DecidableEq, Repr

abbrev SharedFiles := OrderedMap (Bytes ×ₗ Bytes) LocalFile

namespace SharedFiles

def empty : SharedFiles := OrderedMap.empty

def add (files : SharedFiles) (group name : Bytes) (file : LocalFile) : SharedFiles :=
  files.insert (toLex (group, name)) file

def find (files : SharedFiles) (group name : Bytes) : Option LocalFile :=
  OrderedMap.find files (toLex (group, name))

/-- Ignored if the file is not shared or the piece is out of range. -/
def markAvailable (files : SharedFiles) (group name : Bytes) (piece : Nat) : SharedFiles :=
  match files.find group name with
  | none => files
  | some file =>
    if piece < file.available.length then
      files.add group name { file with available := file.available.set piece true }
    else files

def remove (files : SharedFiles) (group name : Bytes) : SharedFiles := files.erase (toLex (group, name))

def removeGroup (files : SharedFiles) (group : Bytes) : SharedFiles :=
  files.filterMap (fun key file => if (ofLex key).1 = group then none else some file)

def clear (_ : SharedFiles) : SharedFiles := empty

section Find

variable (files : SharedFiles) (group name g n : Bytes)

@[simp] theorem find_empty : find empty g n = none := rfl

@[simp] theorem find_add (file : LocalFile) :
    (files.add group name file).find g n = if (g, n) = (group, name) then some file else files.find g n := by
  simp [find, add]

@[simp] theorem find_remove :
    (files.remove group name).find g n = if (g, n) = (group, name) then none else files.find g n := by
  simp [find, remove]

@[simp] theorem find_removeGroup :
    (files.removeGroup group).find g n = if g = group then none else files.find g n := by
  simp only [find, removeGroup, OrderedMap.find_filterMap, ofLex_toLex]
  by_cases h : g = group <;> simp [h]

@[simp] theorem find_clear : files.clear.find g n = none := rfl

/-- Marking a piece touches one flag of one entry. -/
theorem find_markAvailable (piece : Nat) : (files.markAvailable group name piece).find g n =
    if (g, n) = (group, name) then
      (files.find g n).map (fun file => { file with available := file.available.set piece true })
    else files.find g n := by
  unfold markAvailable
  cases hf : files.find group name with
  | none =>
    by_cases h : (g, n) = (group, name)
    · obtain ⟨rfl, rfl⟩ := Prod.mk.inj h
      simp [hf]
    · simp [h]
  | some file =>
    by_cases h : (g, n) = (group, name)
    · obtain ⟨rfl, rfl⟩ := Prod.mk.inj h
      by_cases hp : piece < file.available.length
      · simp [hp, hf]
      · simp [hp, hf, List.set_eq_of_length_le (Nat.le_of_not_lt hp)]
    · by_cases hp : piece < file.available.length <;> simp [hp, h]

end Find

end SharedFiles

end TorrentAtlas
