import Coursework.Lib.CInt
import Coursework.Lib.CString
import Coursework.Nachos.Bin.Noff

/-!
# From COFF to NOFF, after `coff2noff.c`

The sections of a COFF file are copied one after the other behind the place of the NOFF header,
which is written last. The host is a little-endian machine with 32-bit `long`, and no file grows
beyond the largest position that has this type; otherwise `read` and `write` transfer what they
are asked to.
-/
namespace Coursework.Nachos.Coff2noff

def mipselMagic : BitVec 16 := 0x0162
def omagic : BitVec 16 := 0x0107

/-- What of a `scnhdr` is used. -/
structure Section where
  s_name : List UInt8
  s_paddr : BitVec 32
  s_size : BitVec 32
  s_scnptr : BitVec 32
  deriving DecidableEq

/-- `sizeof(struct filehdr)`, `sizeof(struct aouthdr)` and `sizeof(struct scnhdr)` -/
def filehdrSize : ℕ := 20
def aouthdrSize : ℕ := 56
def scnhdrSize : ℕ := 40

def dotText : List UInt8 := [0x2e, 0x74, 0x65, 0x78, 0x74]
def dotData : List UInt8 := [0x2e, 0x64, 0x61, 0x74, 0x61]
def dotRdata : List UInt8 := [0x2e, 0x72, 0x64, 0x61, 0x74, 0x61]
def dotBss : List UInt8 := [0x2e, 0x62, 0x73, 0x73]
def dotSbss : List UInt8 := [0x2e, 0x73, 0x62, 0x73, 0x73]

/-- The section header that `m` points to. The names it is compared with are shorter than the
array. -/
def Section.ofImage (m : Mem) : Section where
  s_name := CString.text (m.bytes 8)
  s_paddr := m.word 8
  s_size := m.word 16
  s_scnptr := m.word 20

/-- An exit with status 1; the output is removed. -/
inductive Failure where
  | tooShort
  | unableToWrite
  | notMipsel
  | notOmagic
  | bothDataAndRdata
  | bothBssAndSbss
  | unknownSegment
  /-- `read` of a negative number of bytes. -/
  | undefined
  deriving DecidableEq

/-- The input as memory. -/
def image (input : List UInt8) : Mem := fun j => input.getD j 0

/-- `Read` at a position. -/
def read (input : List UInt8) (position : ℕ) (nBytes : ℕ) : Except Failure Mem :=
  if position + nBytes ≤ input.length then .ok ((image input).drop position)
  else .error .tooShort

structure OutFile where
  bytes : Mem
  length : ℕ
  position : ℕ

/-- `Write` at the position of the file. -/
def OutFile.write (f : OutFile) (buf : Mem) (nBytes : ℕ) : Except Failure OutFile :=
  if (f.position + nBytes : ℤ) ≤ intMax then
    .ok
      { bytes := f.bytes.copy f.position nBytes buf
        length := max f.length (f.position + nBytes)
        position := f.position + nBytes }
  else .error .unableToWrite

/-- The variables of `main`; `inPosition` is the position of the input file. -/
structure State where
  inPosition : ℕ
  out : OutFile
  inNoffFile : BitVec 32
  noffH : NoffHeader

/-- The bytes of a section are copied to the output. A negative `s_scnptr` does not move the
position of the input. -/
def copySection (input : List UInt8) (s : Section) (st : State) : Except Failure State := do
  let position := if 0 ≤ s.s_scnptr.toInt then s.s_scnptr.toNat else st.inPosition
  if s.s_size.toInt < 0 then throw .undefined
  let buffer ← read input position s.s_size.toNat
  let out ← st.out.write buffer s.s_size.toNat
  pure { st with
    inPosition := position + s.s_size.toNat
    out := out
    inNoffFile := st.inNoffFile + s.s_size }

/-- A round of the loop. -/
def convertSection (input : List UInt8) (s : Section) (st : State) : Except Failure State :=
  if s.s_size = 0 then .ok st
  else if s.s_name = dotText then
    copySection input s { st with noffH.code := ⟨s.s_paddr, st.inNoffFile, s.s_size⟩ }
  else if s.s_name = dotData ∨ s.s_name = dotRdata then
    if st.noffH.initData.size ≠ 0 then .error .bothDataAndRdata
    else copySection input s { st with noffH.initData := ⟨s.s_paddr, st.inNoffFile, s.s_size⟩ }
  else if s.s_name = dotBss ∨ s.s_name = dotSbss then
    if st.noffH.uninitData.size ≠ 0 then
      if s.s_paddr = st.noffH.uninitData.virtualAddr + st.noffH.uninitData.size then
        .error .bothBssAndSbss
      else
        .ok { st with noffH.uninitData.size := st.noffH.uninitData.size + s.s_size }
    else
      .ok { st with
        noffH.uninitData.virtualAddr := s.s_paddr
        noffH.uninitData.size := s.s_size }
  else .error .unknownSegment

def convertSections (input : List UInt8) : List Section → State → Except Failure State
  | [], st => .ok st
  | s :: rest, st => (convertSection input s st).bind (convertSections input rest)

/-- The state before the loop; `noffH` is the header as it is in memory before. -/
def start (inPosition : ℕ) (noffH : NoffHeader) : State where
  inPosition := inPosition
  out := ⟨fun _ => 0, 0, NoffHeader.sizeOf⟩
  inNoffFile := .ofNat 32 NoffHeader.sizeOf
  noffH := { noffH with
    noffMagic := noffMagic
    code.size := 0
    initData.size := 0
    uninitData.size := 0 }

/-- The number of sections in the file header. -/
def numsections (fileh : Mem) : ℕ := ((fileh.word 2).setWidth 16).toNat

/-- The section headers that follow the other headers. -/
def sectionHeaders (input : List UInt8) : List Section :=
  (List.range (numsections (image input))).map fun i =>
    .ofImage ((image input).drop (filehdrSize + aouthdrSize + scnhdrSize * i))

/-- The output, or how `main` fails. -/
def main (input : List UInt8) (noffH : NoffHeader) : Except Failure OutFile := do
  let fileh ← read input 0 filehdrSize
  if (fileh.word 0).setWidth 16 ≠ mipselMagic then throw .notMipsel
  let systemh ← read input filehdrSize aouthdrSize
  if (systemh.word 0).setWidth 16 ≠ omagic then throw .notOmagic
  let headers := filehdrSize + aouthdrSize
  let n := numsections fileh * scnhdrSize
  let _ ← read input headers n
  let st ← convertSections input (sectionHeaders input) (start (headers + n) noffH)
  { st.out with position := 0 }.write (Mem.words st.noffH.toWords) NoffHeader.sizeOf

end Coursework.Nachos.Coff2noff
