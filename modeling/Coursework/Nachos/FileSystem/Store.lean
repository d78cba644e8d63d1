import Coursework.Lib.Service
import Coursework.Nachos.FileSystem.Copy
import Coursework.Nachos.FileSystem.Names
import Coursework.Nachos.FileSystem.Outcome

/-!
# The file system as a store of named files

What the file system is for: names stand for strings of bytes, whose length is fixed when they are
created. There is room for ten names and for as many bytes as there are sectors.
-/
namespace Coursework.Nachos
open Disk

/-- A request to the file system or to a handle, with the memory that the buffers find. -/
inductive FileCall where
  | create (junk : Junk) (name : Mem) (initialSize : ℤ)
  | remove (junk : Junk) (name : Mem)
  | openFile (junk : Junk) (name : Mem)
  | length (handle : ℕ)
  | seek (handle : ℕ) (position : ℤ)
  | readAt (handle : ℕ) (buf into : Mem) (numBytes position : ℤ)
  | writeAt (handle : ℕ) (garbage buf src : Mem) (numBytes position : ℤ)
  | read (handle : ℕ) (buf into : Mem) (numBytes : ℤ)
  | write (handle : ℕ) (garbage buf src : Mem) (numBytes : ℤ)
  /-- Nachos is started again, without `format`. -/
  | mount (junk : Junk)

inductive FileAnswer where
  | bool (b : Bool)
  | length (n : ℤ)
  | bytes (l : List UInt8)
  | count (n : ℕ)
  | done

/-- `Seek` -/
def OpenFile.seek (f : OpenFile) (position : ℤ) : OpenFile := { f with seekPosition := position }

/-- The constructor without `format`. -/
def FileSystem.mount (junk : Junk) (d : Disk) : Option FileSystem := do
  let freeMapFile ← OpenFile.new (junk.hdr 0) d FileSystem.freeMapSector
  let directoryFile ← OpenFile.new (junk.hdr 1) d FileSystem.directorySector
  some ⟨freeMapFile, directoryFile⟩

namespace Session

def call (s : Session) : FileCall → Option (Session × FileAnswer)
  | .create junk name initialSize => do
    let (ok, _) ← s.fs.create junk s.disk name initialSize
    let s ← s.step (.create junk name initialSize)
    some (s, .bool ok)
  | .remove junk name => do
    let (ok, _) ← s.fs.remove junk s.disk name
    let s ← s.step (.remove junk name)
    some (s, .bool ok)
  | .openFile junk name => do
    let f ← s.fs.openFile junk s.disk name
    let s ← s.step (.openFile junk name)
    some (s, .bool f.isSome)
  | .length handle => do
    let h ← s.handles[handle]?
    some (s, .length h.openFile.length)
  | .seek handle position => do
    let h ← s.handles[handle]?
    let h := { h with openFile := h.openFile.seek position }
    some ({ s with handles := s.handles.set handle h }, .done)
  | .readAt handle buf into numBytes position => do
    let h ← s.handles[handle]?
    let (into, n) ← h.openFile.readAt s.disk buf into numBytes position
    some (s, .bytes (into.bytes n))
  | .writeAt handle garbage buf src numBytes position => do
    let h ← s.handles[handle]?
    let (_, n) ← h.openFile.writeAt s.disk garbage buf src numBytes position
    let s ← s.step (.writeAt handle garbage buf src numBytes position)
    some (s, .count n)
  | .read handle buf into numBytes => do
    let h ← s.handles[handle]?
    let (f, into, n) ← h.openFile.read s.disk buf into numBytes
    some ({ s with handles := s.handles.set handle { h with openFile := f } },
      .bytes (into.bytes n))
  | .write handle garbage buf src numBytes => do
    let h ← s.handles[handle]?
    let (_, _, n) ← h.openFile.write s.disk garbage buf src numBytes
    let s ← s.step (.write handle garbage buf src numBytes)
    some (s, .count n)
  | .mount junk => do
    let fs ← FileSystem.mount junk s.disk
    some ({ s with fs := fs, handles := [] }, .done)

end Session

/-! ### The store -/

/-- A handle has the name of its file, until the file is removed, and a position. -/
structure StoreHandle where
  name : Option (List UInt8)
  position : ℤ

structure Store where
  files : BoundedMap (List UInt8) (List UInt8)
  /-- Sectors that are free. -/
  free : ℕ
  handles : List StoreHandle

namespace Store

/-- The sectors of a file with its header. -/
def sectors (size : ℤ) : ℕ := 1 + ((size + 127) / 128).toNat

def empty : Store := ⟨∅, 1019, []⟩

def Refuses (st : Store) (name : List UInt8) (size : ℤ) : Prop :=
  name ∈ st.files ∨ FileSystem.numDirEntries ≤ st.files.keys.card ∨ st.free < sectors size

/-- The handle has a file, with these bytes, and is at the position. -/
structure Live (st : Store) (handle : ℕ) (name bytes : List UInt8) (position : ℤ) : Prop where
  handle : st.handles[handle]? = some ⟨some name, position⟩
  file : st.files.lookup name = some bytes

def close (name : List UInt8) (h : StoreHandle) : StoreHandle :=
  if h.name = some name then { h with name := none } else h

def slice (bytes : List UInt8) (numBytes position : ℤ) : List UInt8 :=
  (bytes.drop position.toNat).take (OpenFile.amount bytes.length numBytes position)

def splice (bytes new : List UInt8) (position : ℤ) : List UInt8 :=
  bytes.take position.toNat ++ new ++ bytes.drop (position.toNat + new.length)

def moved (st : Store) (handle : ℕ) (name : List UInt8) (position : ℤ) : Store :=
  { st with handles := st.handles.set handle ⟨some name, position⟩ }

def written (st : Store) (name bytes new : List UInt8) (position : ℤ) : Store :=
  { st with files := st.files.insert name (splice bytes new position) }

inductive Step : Store → FileCall → FileAnswer → Store → Prop where
  | refuse {st junk name} {size : ℤ} (h : st.Refuses (Directory.key name) size) :
      Step st (.create junk name size) (.bool false) st
  /-- The bytes of a new file may be any. -/
  | create {st junk name} {size : ℤ} {bytes : List UInt8}
      (h : ¬ st.Refuses (Directory.key name) size) (hlen : bytes.length = size) :
      Step st (.create junk name size) (.bool true)
        { st with
          files := st.files.insert (Directory.key name) bytes
          free := st.free - sectors size }
  | removeAbsent {st junk name} (h : Directory.key name ∉ st.files) :
      Step st (.remove junk name) (.bool false) st
  | remove {st junk name bytes} (h : st.files.lookup (Directory.key name) = some bytes) :
      Step st (.remove junk name) (.bool true)
        { files := st.files.erase (Directory.key name)
          free := st.free + sectors bytes.length
          handles := st.handles.map (close (Directory.key name)) }
  | openAbsent {st junk name} (h : Directory.key name ∉ st.files) :
      Step st (.openFile junk name) (.bool false) st
  | openFile {st junk name} (h : Directory.key name ∈ st.files) :
      Step st (.openFile junk name) (.bool true)
        { st with handles := st.handles ++ [⟨some (Directory.key name), 0⟩] }
  | length {st handle name bytes position} (h : st.Live handle name bytes position) :
      Step st (.length handle) (.length bytes.length) st
  | seek {st handle name bytes position position'} (h : st.Live handle name bytes position) :
      Step st (.seek handle position') .done (st.moved handle name position')
  | readAt {st handle name bytes position buf into numBytes position'}
      (h : st.Live handle name bytes position) :
      Step st (.readAt handle buf into numBytes position') (.bytes (slice bytes numBytes position'))
        st
  | writeAt {st handle name bytes position garbage buf numBytes position'} {src : Mem} {n : ℕ}
      (h : st.Live handle name bytes position)
      (hn : n = OpenFile.amount bytes.length numBytes position') :
      Step st (.writeAt handle garbage buf src numBytes position') (.count n)
        (st.written name bytes (src.bytes n) position')
  | read {st handle name bytes position buf into numBytes}
      (h : st.Live handle name bytes position) :
      Step st (.read handle buf into numBytes) (.bytes (slice bytes numBytes position))
        (st.moved handle name (position + OpenFile.amount bytes.length numBytes position))
  | write {st handle name bytes position garbage buf numBytes} {src : Mem} {n : ℕ}
      (h : st.Live handle name bytes position)
      (hn : n = OpenFile.amount bytes.length numBytes position) :
      Step st (.write handle garbage buf src numBytes) (.count n)
        ((st.written name bytes (src.bytes n) position).moved handle name (position + n))
  /-- The files are on the disk, and the handles are not. -/
  | mount {st junk} : Step st (.mount junk) .done { st with handles := [] }

/-- A handle is used as long as its file is there, at positions from 0 onward. -/
def Allows (st : Store) : FileCall → Prop
  | .create _ _ initialSize => 0 ≤ initialSize ∧ initialSize ≤ FileHeader.maxFileSize
  | .remove _ _ | .openFile _ _ | .mount _ => True
  | .length handle | .seek handle _ => ∃ name bytes position, st.Live handle name bytes position
  | .readAt handle _ _ numBytes position | .writeAt handle _ _ _ numBytes position =>
    (∃ name bytes position, st.Live handle name bytes position) ∧ 0 ≤ position ∧
      position + numBytes ≤ intMax
  | .read handle _ _ numBytes | .write handle _ _ _ numBytes =>
    ∃ name bytes position, st.Live handle name bytes position ∧ 0 ≤ position ∧
      position + numBytes ≤ intMax

def service : Service Store FileCall FileAnswer := ⟨Allows, Step⟩

end Store
end Coursework.Nachos
