import Coursework.Nachos.Mipssim

/-!
# The byte order of the host

The host loads and stores words and half words in its own order, and `WordToHost` and
`ShortToHost` turn them around on a big-endian host. What the program sees does not depend on
the host.
-/
namespace Coursework.Nachos.Mipssim
open Mips (Word)

/-- The bytes at a place, from the one that the host takes for the least significant on. -/
def hostBytes (bigEndian : Bool) (mem : Mem) (off size : ℕ) : Mem := fun i =>
  if bigEndian then mem (off + (size - 1 - i)) else mem (off + i)

/-- The host stores a value of `size` bytes. -/
def hostStore (bigEndian : Bool) (mem : Mem) (off size : ℕ) (value : Word) : Mem :=
  mem.copy off size fun i => if bigEndian then byteOf value (size - 1 - i) else byteOf value i

def wordToHost (bigEndian : Bool) (word : Word) : Word :=
  if bigEndian then
    let result := word >>> 24 &&& 0x000000ff#32
    let result := result ||| word >>> 8 &&& 0x0000ff00#32
    let result := result ||| word <<< 8 &&& 0x00ff0000#32
    result ||| word <<< 24 &&& 0xff000000#32
  else word

def shortToHost (bigEndian : Bool) (shortword : BitVec 16) : BitVec 16 :=
  if bigEndian then
    let result := shortword <<< 8 &&& 0xff00#16
    result ||| shortword >>> 8 &&& 0x00ff#16
  else shortword

def wordToMachine (bigEndian : Bool) (word : Word) : Word := wordToHost bigEndian word

def shortToMachine (bigEndian : Bool) (shortword : BitVec 16) : BitVec 16 :=
  shortToHost bigEndian shortword

namespace Machine

/-- `ReadMem` on a host of either byte order. -/
def readMemOn (bigEndian : Bool) (m : Machine) (addr : Word) (size : ℕ) :
    Except Stop (Word × Machine) := do
  let (physicalAddress, m) ← m.translated addr size false
  let data := (hostBytes bigEndian m.mainMemory physicalAddress size).word 0
  if size = 1 then pure ((m.mainMemory physicalAddress).toBitVec.signExtend 32, m)
  else if size = 2 then pure ((shortToHost bigEndian (data.setWidth 16)).setWidth 32, m)
  else if size = 4 then pure (wordToHost bigEndian data, m)
  else throw .assertFailed

/-- `WriteMem` on a host of either byte order. -/
def writeMemOn (bigEndian : Bool) (m : Machine) (addr : Word) (size : ℕ) (value : Word) :
    Except Stop Machine := do
  let (physicalAddress, m) ← m.translated addr size true
  let store := hostStore bigEndian m.mainMemory physicalAddress size
  if size = 1 then pure { m with mainMemory := store (value &&& 0xff) }
  else if size = 2 then
    let data := shortToMachine bigEndian ((value &&& 0xffff).setWidth 16)
    pure { m with mainMemory := store (data.setWidth 32) }
  else if size = 4 then pure { m with mainMemory := store (wordToMachine bigEndian value) }
  else throw .assertFailed

end Machine

variable {bigEndian : Bool} {mem : Mem} {off i k : ℕ}

/-! ### Bits -/

theorem getLsbD_wordToHost (w : Word) (hk : k < 32) :
    (wordToHost true w).getLsbD k = w.getLsbD (8 * (3 - k / 8) + k % 8) := by
  have hmask : ∀ k < 32,
      (0x000000ff#32).getLsbD k = decide (k / 8 = 0) ∧
      (0x0000ff00#32).getLsbD k = decide (k / 8 = 1) ∧
      (0x00ff0000#32).getLsbD k = decide (k / 8 = 2) ∧
      (0xff000000#32).getLsbD k = decide (k / 8 = 3) := by decide
  obtain ⟨h0, h1, h2, h3⟩ := hmask k hk
  simp only [wordToHost, if_true, BitVec.getLsbD_or, BitVec.getLsbD_and, BitVec.getLsbD_shiftLeft,
    BitVec.getLsbD_ushiftRight, h0, h1, h2, h3, hk, decide_true, Bool.true_and]
  have hbyte : k / 8 = 0 ∨ k / 8 = 1 ∨ k / 8 = 2 ∨ k / 8 = 3 := by omega
  rcases hbyte with h | h | h | h
  · rw [show 8 * (3 - k / 8) + k % 8 = 24 + k by omega]
    simp [h]
  · rw [show 8 * (3 - k / 8) + k % 8 = 8 + k by omega]
    simp [h, show ¬ k < 8 by omega]
  · rw [show 8 * (3 - k / 8) + k % 8 = k - 8 by omega]
    simp [h, show ¬ k < 8 by omega]
  · rw [show 8 * (3 - k / 8) + k % 8 = k - 24 by omega]
    simp [h, show ¬ k < 24 by omega]

theorem getLsbD_shortToHost (s : BitVec 16) (hk : k < 16) :
    (shortToHost true s).getLsbD k = s.getLsbD (8 * (1 - k / 8) + k % 8) := by
  have hmask : ∀ k < 16, (0xff00#16).getLsbD k = decide (k / 8 = 1) ∧
      (0x00ff#16).getLsbD k = decide (k / 8 = 0) := by decide
  obtain ⟨h1, h0⟩ := hmask k hk
  simp only [shortToHost, if_true, BitVec.getLsbD_or, BitVec.getLsbD_and,
    BitVec.getLsbD_shiftLeft, BitVec.getLsbD_ushiftRight, h0, h1, hk, decide_true, Bool.true_and]
  have hbyte : k / 8 = 0 ∨ k / 8 = 1 := by omega
  rcases hbyte with h | h
  · rw [show 8 * (1 - k / 8) + k % 8 = 8 + k by omega]
    simp [h]
  · rw [show 8 * (1 - k / 8) + k % 8 = k - 8 by omega]
    simp [h, show ¬ k < 8 by omega]

/-! ### Bytes -/

theorem byteOf_wordToHost (w : Word) (hi : i < 4) :
    byteOf (wordToHost true w) i = byteOf w (3 - i) := by
  apply byteOf_congr
  intro j hj
  rw [getLsbD_wordToHost w (by omega), show (8 * i + j) / 8 = i by omega,
    show (8 * i + j) % 8 = j by omega]

theorem byteOf_setWidth (s : BitVec 16) (w : Word)
    (h : ∀ j < 8, s.getLsbD (8 * i + j) = w.getLsbD (8 * k + j)) :
    byteOf (s.setWidth 32) i = byteOf w k := by
  apply byteOf_congr
  intro j hj
  rw [BitVec.getLsbD_setWidth, ← h j hj]
  by_cases hlt : 8 * i + j < 32
  · rw [decide_eq_true hlt, Bool.true_and]
  · rw [decide_eq_false hlt, Bool.false_and, BitVec.getLsbD_of_ge s _ (by omega)]

/-- A half word has two bytes. -/
theorem byteOf_setWidth_high (s : BitVec 16) (hi : 2 ≤ i) : byteOf (s.setWidth 32) i = 0 := by
  rw [byteOf_setWidth s 0 (k := 0)]
  · rfl
  · intro j hj
    rw [BitVec.getLsbD_of_ge s _ (by omega)]
    exact BitVec.getLsbD_zero.symm

theorem byteOf_half (w : Word) (hi : i < 2) :
    byteOf ((w.setWidth 16).setWidth 32) i = byteOf w i := by
  apply byteOf_setWidth
  intro j hj
  rw [BitVec.getLsbD_setWidth, decide_eq_true (by omega), Bool.true_and]

theorem byteOf_shortToHost (w : Word) (hi : i < 2) :
    byteOf ((shortToHost true (w.setWidth 16)).setWidth 32) i = byteOf w (1 - i) := by
  apply byteOf_setWidth
  intro j hj
  rw [getLsbD_shortToHost _ (by omega), show (8 * i + j) / 8 = i by omega,
    show (8 * i + j) % 8 = j by omega, BitVec.getLsbD_setWidth, decide_eq_true (by omega),
    Bool.true_and]

theorem word_ext {w w' : Word} (h : ∀ i < 4, byteOf w i = byteOf w' i) : w = w' :=
  calc w = Mem.word (byteOf w) 0 := (Mem.word_of_bytes fun i _ => by rw [Nat.zero_add]).symm
    _ = w' := Mem.word_of_bytes fun i hi => by rw [Nat.zero_add, h i hi]

/-! ### Loads and stores -/

theorem wordToHost_load (bigEndian : Bool) (mem : Mem) (off : ℕ) :
    wordToHost bigEndian ((hostBytes bigEndian mem off 4).word 0) = mem.word off := by
  apply word_ext
  intro i hi
  rw [Mem.byteOf_word mem off hi]
  cases bigEndian with
  | false =>
    rw [wordToHost, if_neg Bool.false_ne_true, Mem.byteOf_word _ _ hi, Nat.zero_add]
    rfl
  | true =>
    rw [byteOf_wordToHost _ hi, Mem.byteOf_word _ _ (by omega), hostBytes, if_pos rfl]
    congr 1
    omega

theorem shortToHost_load (bigEndian : Bool) (mem : Mem) (off : ℕ) :
    (shortToHost bigEndian (((hostBytes bigEndian mem off 2).word 0).setWidth 16)).setWidth 32 =
      ((mem.word off).setWidth 16).setWidth 32 := by
  apply word_ext
  intro i hi
  by_cases hlow : i < 2
  · rw [byteOf_half _ hlow, Mem.byteOf_word mem off hi]
    cases bigEndian with
    | false =>
      rw [shortToHost, if_neg Bool.false_ne_true, byteOf_half _ hlow, Mem.byteOf_word _ _ hi,
        Nat.zero_add]
      rfl
    | true =>
      rw [byteOf_shortToHost _ hlow, Mem.byteOf_word _ _ (by omega), hostBytes, if_pos rfl]
      congr 1
      omega
  · rw [byteOf_setWidth_high _ (by omega), byteOf_setWidth_high _ (by omega)]

theorem copy_congr {src src' : Mem} {n : ℕ} (h : ∀ i < n, src i = src' i) :
    mem.copy off n src = mem.copy off n src' := by
  funext j
  rw [Mem.copy, Mem.copy]
  split_ifs with hj
  · exact h _ (by omega)
  · rfl

theorem hostStore_word (bigEndian : Bool) (mem : Mem) (off : ℕ) (value : Word) :
    hostStore bigEndian mem off 4 (wordToMachine bigEndian value) =
      mem.copy off 4 (byteOf value) := by
  apply copy_congr
  intro i hi
  cases bigEndian with
  | false => rfl
  | true =>
    rw [if_pos rfl, wordToMachine, byteOf_wordToHost _ (by omega)]
    congr 1
    omega

theorem byteOf_low (value : Word) (hi : i < 2) :
    byteOf (value &&& 0xffff) i = byteOf value i := by
  apply byteOf_congr
  intro j hj
  have hmask : ∀ k < 16, (0xffff : Word).getLsbD k = true := by decide
  rw [BitVec.getLsbD_and, hmask _ (by omega), Bool.and_true]

theorem hostStore_short (bigEndian : Bool) (mem : Mem) (off : ℕ) (value : Word) :
    hostStore bigEndian mem off 2
        ((shortToMachine bigEndian ((value &&& 0xffff).setWidth 16)).setWidth 32) =
      mem.copy off 2 (byteOf value) := by
  apply copy_congr
  intro i hi
  cases bigEndian with
  | false =>
    rw [if_neg Bool.false_ne_true, shortToMachine, shortToHost, if_neg Bool.false_ne_true,
      byteOf_half _ hi, byteOf_low _ hi]
  | true =>
    rw [if_pos rfl, shortToMachine, byteOf_shortToHost _ (by omega), byteOf_low _ (by omega)]
    congr 1
    omega

theorem hostStore_byte (bigEndian : Bool) (mem : Mem) (off : ℕ) (value : Word) :
    hostStore bigEndian mem off 1 (value &&& 0xff) = mem.copy off 1 (byteOf value) := by
  apply copy_congr
  intro i hi
  have hbyte : byteOf (value &&& 0xff) 0 = byteOf value 0 := by
    apply byteOf_congr
    intro j hj
    have hmask : ∀ k < 8, (0xff : Word).getLsbD k = true := by decide
    rw [BitVec.getLsbD_and, hmask _ (by omega), Bool.and_true]
  obtain rfl : i = 0 := by omega
  rw [ite_self, hbyte]

/-! ### What the program sees -/

namespace Machine

theorem readMemOn_eq (bigEndian : Bool) (m : Machine) (addr : Word) (size : ℕ) :
    m.readMemOn bigEndian addr size = m.readMem addr size := by
  rw [readMemOn, readMem]
  cases m.translated addr size false with
  | error stop => rfl
  | ok r =>
    obtain ⟨pa, m₁⟩ := r
    simp only [bind, Except.bind]
    by_cases h1 : size = 1
    · subst h1
      rfl
    by_cases h2 : size = 2
    · subst h2
      rw [if_neg h1, if_pos rfl, shortToHost_load]
      rfl
    by_cases h4 : size = 4
    · subst h4
      rw [if_neg h1, if_neg h2, if_pos rfl, wordToHost_load]
      rfl
    rw [if_neg h1, if_neg h2, if_neg h4]
    split <;> first | contradiction | rfl

theorem writeMemOn_eq (bigEndian : Bool) (m : Machine) (addr : Word) (size : ℕ) (value : Word) :
    m.writeMemOn bigEndian addr size value = m.writeMem addr size value := by
  rw [writeMemOn, writeMem]
  cases m.translated addr size true with
  | error stop => rfl
  | ok r =>
    obtain ⟨pa, m₁⟩ := r
    simp only [bind, Except.bind]
    by_cases h1 : size = 1
    · subst h1
      rw [if_pos rfl, hostStore_byte]
      rfl
    by_cases h2 : size = 2
    · subst h2
      rw [if_neg h1, if_pos rfl, hostStore_short]
      rfl
    by_cases h4 : size = 4
    · subst h4
      rw [if_neg h1, if_neg h2, if_pos rfl, hostStore_word]
      rfl
    rw [if_neg h1, if_neg h2, if_neg h4]
    split <;> first | contradiction | rfl

end Machine
end Coursework.Nachos.Mipssim
