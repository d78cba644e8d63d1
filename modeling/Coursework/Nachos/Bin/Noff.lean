import Coursework.Lib.Memory

/-!
# The object code format, after `noff.h`
-/
namespace Coursework.Nachos

def noffMagic : BitVec 32 := 0xbadfad

/-- The fields are of type `int`. -/
structure Segment where
  virtualAddr : BitVec 32
  inFileAddr : BitVec 32
  size : BitVec 32
  deriving DecidableEq

structure NoffHeader where
  noffMagic : BitVec 32
  code : Segment
  initData : Segment
  uninitData : Segment
  deriving DecidableEq

namespace NoffHeader

/-- `sizeof(NoffHeader)` -/
def sizeOf : ℕ := 40

/-- The header that consists of these words. -/
def ofWords (w : ℕ → BitVec 32) : NoffHeader where
  noffMagic := w 0
  code := ⟨w 1, w 2, w 3⟩
  initData := ⟨w 4, w 5, w 6⟩
  uninitData := ⟨w 7, w 8, w 9⟩

def toWords (h : NoffHeader) : List (BitVec 32) :=
  [h.noffMagic, h.code.virtualAddr, h.code.inFileAddr, h.code.size, h.initData.virtualAddr,
    h.initData.inFileAddr, h.initData.size, h.uninitData.virtualAddr, h.uninitData.inFileAddr,
    h.uninitData.size]

theorem ofWords_congr {w w' : ℕ → BitVec 32} (h : ∀ k < 10, w k = w' k) :
    ofWords w = ofWords w' := by
  simp [ofWords, h]

theorem ofWords_toWords (h : NoffHeader) : ofWords (fun k => h.toWords.getD k 0) = h := rfl

end NoffHeader
end Coursework.Nachos
