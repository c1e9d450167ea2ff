import Rustorr.Cache.Layout

/-! The part of the file system below the store's root: one directory for each
torrent, with a manifest, its temporary replacement and sparse data files. -/

namespace Rustorr

/-- A torrent's directory. Data files are named by the decimal index and the
manifest by a name that begins with a dot, so none of them collide. The
manifest is `none` also where its bytes are no text. -/
structure Dir where
  manifest : Option (List Char)
  temporary : Option (List Char)
  files : ℕ → Option (List UInt8)

namespace Dir

def empty : Dir := ⟨none, none, fun _ => none⟩

def setFile (dir : Dir) (index : ℕ) (bytes : List UInt8) : Dir :=
  { dir with files := fun i => if i = index then some bytes else dir.files i }

@[simp] theorem setFile_manifest (dir : Dir) (index : ℕ) (bytes : List UInt8) :
    (dir.setFile index bytes).manifest = dir.manifest := rfl

@[simp] theorem setFile_self (dir : Dir) (index : ℕ) (bytes : List UInt8) :
    (dir.setFile index bytes).files index = some bytes := by simp [setFile]

theorem setFile_of_ne (dir : Dir) {index i : ℕ} (bytes : List UInt8) (h : i ≠ index) :
    (dir.setFile index bytes).files i = dir.files i := by simp [setFile, h]

end Dir

/-- Which file-system steps of one operation fail, and what a step that fails
part-way leaves behind. A step that is not named here succeeds. -/
structure Faults where
  readManifest : Bool := false
  metadata : ℕ → Bool := fun _ => false
  removeDir : Option (Dir → Dir) := none
  createDir : Bool := false
  openFile : Bool := false
  writeAt : Option ℕ := none
  createManifest : Bool := false
  writeManifest : Option ℕ := none
  syncManifest : Bool := false
  renameManifest : Bool := false
  readAt : Bool := false

def Faults.none : Faults := {}

/-- `write_all_at`: the bytes of a file after `data` has been written at
`offset`; a hole before it reads as zeros. -/
def overwrite (bytes : List UInt8) (offset : ℕ) (data : List UInt8) : List UInt8 :=
  bytes.take offset ++ List.replicate (offset - bytes.length) 0 ++ data ++
    bytes.drop (offset + data.length)

theorem getElem?_overwrite (bytes : List UInt8) (offset : ℕ) (data : List UInt8) (i : ℕ)
    (hdata : data ≠ []) :
    (overwrite bytes offset data)[i]? =
      if offset ≤ i ∧ i < offset + data.length then data[i - offset]?
      else if i < bytes.length then bytes[i]?
      else if i < offset then some 0 else none := by
  have hpos : 0 < data.length := List.length_pos_iff.mpr hdata
  have hlead : (bytes.take offset ++ List.replicate (offset - bytes.length) 0).length = offset := by
    simp only [List.length_append, List.length_take, List.length_replicate]
    omega
  rw [overwrite, List.append_assoc]
  by_cases h1 : i < offset
  · rw [List.getElem?_append_left (by omega), if_neg (by omega)]
    by_cases h2 : i < bytes.length
    · rw [if_pos h2, List.getElem?_append_left (by simp; omega), List.getElem?_take_of_lt h1]
    · rw [if_neg h2, if_pos h1, List.getElem?_append_right (by simp; omega),
        List.getElem?_replicate, if_pos (by simp; omega)]
  · rw [List.getElem?_append_right (by omega), hlead]
    by_cases h2 : i < offset + data.length
    · rw [if_pos (by omega), List.getElem?_append_left (by omega)]
    · rw [if_neg (by omega), List.getElem?_append_right (by omega), List.getElem?_drop,
        show offset + data.length + (i - offset - data.length) = i by omega]
      by_cases h3 : i < bytes.length
      · rw [if_pos h3]
      · rw [if_neg h3, if_neg h1, List.getElem?_eq_none (by omega)]

theorem length_overwrite (bytes : List UInt8) (offset : ℕ) (data : List UInt8) :
    (overwrite bytes offset data).length = max bytes.length (offset + data.length) := by
  simp only [overwrite, List.length_append, List.length_take, List.length_replicate,
    List.length_drop]
  omega

/-- The directories under the root, by name. -/
structure FileSystem where
  entries : List Char → Option Dir

namespace FileSystem

def empty : FileSystem := ⟨fun _ => none⟩

def set (fs : FileSystem) (name : List Char) (dir : Option Dir) : FileSystem :=
  ⟨fun n => if n = name then dir else fs.entries n⟩

@[simp] theorem set_self (fs : FileSystem) (name : List Char) (dir : Option Dir) :
    (fs.set name dir).entries name = dir := by simp [set]

theorem set_of_ne (fs : FileSystem) {name n : List Char} (dir : Option Dir) (h : n ≠ name) :
    (fs.set name dir).entries n = fs.entries n := by simp [set, h]

/-- `remove_dir`: a directory that is not there is no error. -/
def removeDir (fs : FileSystem) (name : List Char) (faults : Faults) :
    Except Cache.Error Unit × FileSystem :=
  match fs.entries name with
  | none => (.ok (), fs)
  | some dir => match faults.removeDir with
    | none => (.ok (), fs.set name none)
    | some rest => (.error (.io "remove cache directory" .other), fs.set name (some (rest dir)))

def createDirAll (fs : FileSystem) (name : List Char) (faults : Faults) :
    Except Cache.Error Unit × FileSystem :=
  if faults.createDir then (.error (.io "create cache directory" .other), fs)
  else match fs.entries name with
    | none => (.ok (), fs.set name (some Dir.empty))
    | some _ => (.ok (), fs)

end FileSystem

end Rustorr
