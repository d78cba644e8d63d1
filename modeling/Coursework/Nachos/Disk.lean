import Coursework.Lib.CInt
import Coursework.Lib.Memory

/-!
# The sectors of `disk.cc`

A sector is read and written as a whole. A request for a sector that is not there fails
an assertion, and the operation is `none`.
-/
namespace Coursework.Nachos

/-- The bytes of each sector; those from `sectorSize` onward are not used. -/
abbrev Disk := ℤ → Mem

namespace Disk

def sectorSize : ℕ := 128

def sectorsPerTrack : ℕ := 32

def numTracks : ℕ := 32

def numSectors : ℕ := sectorsPerTrack * numTracks

/-- `ReadRequest`, with the data in place when the request is done. -/
def readSector (d : Disk) (sectorNumber : ℤ) (data : Mem) : Option Mem :=
  if 0 ≤ sectorNumber ∧ sectorNumber < numSectors then
    some (data.copy 0 sectorSize (d sectorNumber))
  else none

/-- `WriteRequest` -/
def writeSector (d : Disk) (sectorNumber : ℤ) (data : Mem) : Option Disk :=
  if 0 ≤ sectorNumber ∧ sectorNumber < numSectors then
    some (Function.update d sectorNumber ((d sectorNumber).copy 0 sectorSize data))
  else none

variable {d : Disk} {s : ℤ} {data : Mem}

/-- A sector of the disk. -/
def IsSector (s : ℤ) : Prop := 0 ≤ s ∧ s < numSectors

instance : DecidablePred IsSector := fun s => inferInstanceAs (Decidable (0 ≤ s ∧ s < numSectors))

theorem readSector_eq (hs : IsSector s) :
    d.readSector s data = some (data.copy 0 sectorSize (d s)) := if_pos hs

theorem writeSector_eq (hs : IsSector s) :
    d.writeSector s data = some (Function.update d s ((d s).copy 0 sectorSize data)) := if_pos hs

end Disk
end Coursework.Nachos
