import Coursework.Lib.Memory
import Coursework.Lib.Mips

/-!
# The processor of the simulated machine

`OneInstruction` fetches a word through `Translate`, decodes it and executes it. A load is carried
out at the end of the next instruction. `RaiseException` carries out a pending load and enters the
kernel; where it is called, an instruction ends. The host is a little-endian machine, `int`
arithmetic wraps, and a host division traps on a zero divisor and where the quotient does not fit.
-/
namespace Coursework.Nachos.Mipssim
open Mips (Word Reg)

def pageSize : ℕ := 128
def numPhysPages : ℕ := 32
def memorySize : ℕ := numPhysPages * pageSize

/-- The array `registers`. `LoadReg` is the number of a general register. -/
structure Registers where
  gpr : Reg → Word
  hi : Word
  lo : Word
  pc : Word
  nextPC : Word
  prevPC : Word
  loadReg : Reg
  loadValue : Word
  badVAddr : Word

structure TranslationEntry where
  virtualPage : Word
  physicalPage : Word
  valid : Bool
  readOnly : Bool
  use : Bool
  dirty : Bool
  deriving DecidableEq

/-- `tlb` and `pageTable` are `none` where the pointers are `NULL`. -/
structure Machine where
  registers : Registers
  mainMemory : Mem
  tlb : Option (List TranslationEntry)
  pageTable : Option (List TranslationEntry)

inductive ExceptionType where
  | syscall
  | pageFault
  | readOnly
  | busError
  | addressError
  | overflow
  | illegalInstr
  deriving DecidableEq

/-- How an instruction ends before its end. -/
inductive Stop where
  /-- `ExceptionHandler` is entered in this state. -/
  | raised (which : ExceptionType) (m : Machine)
  | assertFailed
  /-- A division of the host traps. -/
  | hostTrap

/-! ### Registers -/

namespace Machine

/-- `registers[r] = v`. -/
def set (m : Machine) (r : Reg) (v : Word) : Machine :=
  { m with registers.gpr := Function.update m.registers.gpr r v }

def delayedLoad (m : Machine) (nextReg : Reg) (nextValue : Word) : Machine :=
  { m with
    registers.gpr := Function.update
      (Function.update m.registers.gpr m.registers.loadReg m.registers.loadValue) 0 0
    registers.loadReg := nextReg
    registers.loadValue := nextValue }

/-- The state in which the kernel is entered. -/
def raise (m : Machine) (badVAddr : Word) : Machine :=
  { m with registers.badVAddr := badVAddr }.delayedLoad 0 0

def raiseException (m : Machine) (which : ExceptionType) (badVAddr : Word) : Stop :=
  .raised which (m.raise badVAddr)

/-! ### Memory -/

/-- The entry for a virtual page: its place in the table that is in use. -/
def findEntry (m : Machine) (vpn : ℕ) : Except (Option ExceptionType) (ℕ × TranslationEntry) :=
  match m.tlb, m.pageTable with
  | none, some pageTable =>
    match pageTable[vpn]? with
    | none => .error (some .addressError)
    | some entry => if entry.valid then .ok (vpn, entry) else .error (some .pageFault)
  | some tlb, none =>
    match tlb.zipIdx.find? fun (entry, _) => entry.valid && entry.virtualPage.toNat == vpn with
    | none => .error (some .pageFault)
    | some (entry, i) => .ok (i, entry)
  -- the assertions that there is either a TLB or a page table
  | none, none | some _, some _ => .error none

def setEntry (m : Machine) (i : ℕ) (entry : TranslationEntry) : Machine :=
  { m with
    tlb := m.tlb.map fun tlb => tlb.set i entry
    pageTable := m.pageTable.map fun pageTable => pageTable.set i entry }

/-- The physical address, with the use and dirty bits set; an error is an exception that
`Translate` returns, or `none` where an assertion fails. -/
def translate (m : Machine) (virtAddr : Word) (size : ℕ) (writing : Bool) :
    Except (Option ExceptionType) (ℕ × Machine) := do
  if size = 4 ∧ virtAddr &&& 0x3 ≠ 0 ∨ size = 2 ∧ virtAddr &&& 0x1 ≠ 0 then
    throw (some .addressError)
  let vpn := virtAddr.toNat / pageSize
  let offset := virtAddr.toNat % pageSize
  let (i, entry) ← m.findEntry vpn
  if entry.readOnly ∧ writing then throw (some .readOnly)
  let pageFrame := entry.physicalPage.toNat
  if pageFrame ≥ numPhysPages then throw (some .busError)
  let physAddr := pageFrame * pageSize + offset
  if physAddr + size > memorySize then throw none
  pure (physAddr, m.setEntry i { entry with use := true, dirty := entry.dirty || writing })

/-- `Translate` and the exception for its error. -/
def translated (m : Machine) (addr : Word) (size : ℕ) (writing : Bool) :
    Except Stop (ℕ × Machine) :=
  (m.translate addr size writing).mapError fun
    | some exception => m.raiseException exception addr
    | none => .assertFailed

/-- Words and half words start with their least significant byte; a `char` has a sign. -/
def readMem (m : Machine) (addr : Word) (size : ℕ) : Except Stop (Word × Machine) := do
  let (physicalAddress, m) ← m.translated addr size false
  match size with
  | 1 => pure ((m.mainMemory physicalAddress).toBitVec.signExtend 32, m)
  | 2 => pure (((m.mainMemory.word physicalAddress).setWidth 16).setWidth 32, m)
  | 4 => pure (m.mainMemory.word physicalAddress, m)
  | _ => throw .assertFailed

def writeMem (m : Machine) (addr : Word) (size : ℕ) (value : Word) : Except Stop Machine := do
  let (physicalAddress, m) ← m.translated addr size true
  match size with
  | 1 | 2 | 4 =>
    pure { m with mainMemory := m.mainMemory.copy physicalAddress size (byteOf value) }
  | _ => throw .assertFailed

end Machine

/-! ### Programs -/

/-- The page table that `AddrSpace` sets up. -/
def addrSpace (numPages : ℕ) : List TranslationEntry :=
  (List.range numPages).map fun i =>
    { virtualPage := .ofNat 32 i
      physicalPage := .ofNat 32 i
      valid := true
      readOnly := false
      use := false
      dirty := false }

/-- A program of one page before its first instruction. -/
def Machine.start (code : List Word) (gpr : Reg → Word) : Machine :=
  { registers :=
      { gpr := gpr, hi := 0, lo := 0, pc := 0, nextPC := 4, prevPC := 0
        loadReg := 0, loadValue := 0, badVAddr := 0 }
    mainMemory := Mem.words code
    tlb := none
    pageTable := some (addrSpace 1) }

/-! ### Decoding -/

/-- The constants `OP_...`, and `SPECIAL` and `BCOND`. -/
inductive OpCode where
  | add | addi | addiu | addu | and | andi
  | beq | bgez | bgezal | bgtz | blez | bltz | bltzal | bne
  | div | divu | j | jal | jalr | jr
  | lb | lbu | lh | lhu | lui | lw | lwl | lwr
  | mfhi | mflo | mthi | mtlo | mult | multu
  | nor | or | ori | rfe | sb | sh
  | sll | sllv | slt | slti | sltiu | sltu | sra | srav | srl | srlv
  | sub | subu | sw | swl | swr | xor | xori
  | syscall | unimp | res
  | special | bcond
  deriving DecidableEq

inductive Format where
  | ifmt
  | jfmt
  | rfmt
  deriving DecidableEq

structure OpInfo where
  opCode : OpCode
  format : Format

def opTable : List OpInfo := [
  ⟨.special, .rfmt⟩, ⟨.bcond, .ifmt⟩, ⟨.j, .jfmt⟩, ⟨.jal, .jfmt⟩,
  ⟨.beq, .ifmt⟩, ⟨.bne, .ifmt⟩, ⟨.blez, .ifmt⟩, ⟨.bgtz, .ifmt⟩,
  ⟨.addi, .ifmt⟩, ⟨.addiu, .ifmt⟩, ⟨.slti, .ifmt⟩, ⟨.sltiu, .ifmt⟩,
  ⟨.andi, .ifmt⟩, ⟨.ori, .ifmt⟩, ⟨.xori, .ifmt⟩, ⟨.lui, .ifmt⟩,
  ⟨.unimp, .ifmt⟩, ⟨.unimp, .ifmt⟩, ⟨.unimp, .ifmt⟩, ⟨.unimp, .ifmt⟩,
  ⟨.res, .ifmt⟩, ⟨.res, .ifmt⟩, ⟨.res, .ifmt⟩, ⟨.res, .ifmt⟩,
  ⟨.res, .ifmt⟩, ⟨.res, .ifmt⟩, ⟨.res, .ifmt⟩, ⟨.res, .ifmt⟩,
  ⟨.res, .ifmt⟩, ⟨.res, .ifmt⟩, ⟨.res, .ifmt⟩, ⟨.res, .ifmt⟩,
  ⟨.lb, .ifmt⟩, ⟨.lh, .ifmt⟩, ⟨.lwl, .ifmt⟩, ⟨.lw, .ifmt⟩,
  ⟨.lbu, .ifmt⟩, ⟨.lhu, .ifmt⟩, ⟨.lwr, .ifmt⟩, ⟨.res, .ifmt⟩,
  ⟨.sb, .ifmt⟩, ⟨.sh, .ifmt⟩, ⟨.swl, .ifmt⟩, ⟨.sw, .ifmt⟩,
  ⟨.res, .ifmt⟩, ⟨.res, .ifmt⟩, ⟨.swr, .ifmt⟩, ⟨.res, .ifmt⟩,
  ⟨.unimp, .ifmt⟩, ⟨.unimp, .ifmt⟩, ⟨.unimp, .ifmt⟩, ⟨.unimp, .ifmt⟩,
  ⟨.res, .ifmt⟩, ⟨.res, .ifmt⟩, ⟨.res, .ifmt⟩, ⟨.res, .ifmt⟩,
  ⟨.unimp, .ifmt⟩, ⟨.unimp, .ifmt⟩, ⟨.unimp, .ifmt⟩, ⟨.unimp, .ifmt⟩,
  ⟨.res, .ifmt⟩, ⟨.res, .ifmt⟩, ⟨.res, .ifmt⟩, ⟨.res, .ifmt⟩]

def specialTable : List OpCode := [
  .sll, .res, .srl, .sra, .sllv, .res, .srlv, .srav,
  .jr, .jalr, .res, .res, .syscall, .unimp, .res, .res,
  .mfhi, .mthi, .mflo, .mtlo, .res, .res, .res, .res,
  .mult, .multu, .div, .divu, .res, .res, .res, .res,
  .add, .addu, .sub, .subu, .and, .or, .xor, .nor,
  .res, .res, .slt, .sltu, .res, .res, .res, .res,
  .res, .res, .res, .res, .res, .res, .res, .res,
  .res, .res, .res, .res, .res, .res, .res, .res]

structure Instruction where
  opCode : OpCode
  rs : Reg
  rt : Reg
  rd : Reg
  extra : Word

/-- Both tables have an entry for each index that is looked up. -/
def decode (value : Word) : Instruction :=
  let opPtr := opTable.getD (value >>> 26 &&& 0x3f).toNat ⟨.res, .ifmt⟩
  let extra := match opPtr.format with
    | .ifmt =>
      let extra := value &&& 0xffff
      if extra &&& 0x8000 ≠ 0 then extra ||| 0xffff0000 else extra
    | .rfmt => value >>> 6 &&& 0x1f
    | .jfmt => value &&& 0x3ffffff
  let opCode :=
    if opPtr.opCode = .special then specialTable.getD (value &&& 0x3f).toNat .res
    else if opPtr.opCode = .bcond then
      let i := value &&& 0x1f0000
      if i = 0 then .bltz
      else if i = 0x10000 then .bgez
      else if i = 0x100000 then .bltzal
      else if i = 0x110000 then .bgezal
      else .unimp
    else opPtr.opCode
  { opCode := opCode
    rs := (value >>> 21 &&& 0x1f).setWidth 5
    rt := (value >>> 16 &&& 0x1f).setWidth 5
    rd := (value >>> 11 &&& 0x1f).setWidth 5
    extra := extra }

end Coursework.Nachos.Mipssim
