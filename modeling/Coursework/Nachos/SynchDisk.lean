import Coursework.Nachos.Disk
import Coursework.Nachos.Driver.Answers

/-!
# The synchronous disk of `synchdisk.cc`

`ReadSector` and `WriteSector` differ in the request they make. The disk carries a request out at
once and schedules the interrupt for it.
-/
namespace Coursework.Nachos

/-- The part of class `Disk` that the requests use. -/
structure DiskDevice where
  active : Bool
  sectors : Disk

namespace SynchDisk
open Driver

inductive Request where
  | readSector (sectorNumber : ℤ) (data : Mem)
  | writeSector (sectorNumber : ℤ) (data : Mem)

def Request.sectorNumber : Request → ℤ
  | .readSector s _ | .writeSector s _ => s

/-- `ReadRequest` and `WriteRequest`; the result is the caller's buffer. -/
def request (d : DiskDevice) (q : Request) (_ : Unit) : Option (DiskDevice × Mem) :=
  if d.active then none
  else match q with
    | .readSector s data => (d.sectors.readSector s data).map fun m =>
        ({ d with active := true }, m)
    | .writeSector s data => (d.sectors.writeSector s data).map fun sectors =>
        ({ active := true, sectors := sectors }, data)

/-- `HandleInterrupt`, before it calls `RequestDone` -/
def handleInterrupt (d : DiskDevice) : DiskDevice := { d with active := false }

def disk : Device DiskDevice Request Unit Mem := ⟨request, handleInterrupt⟩

variable {Tid : Type}

/-- The disk has the contents `d0` when it is opened. -/
def machine [DecidableEq Tid] (d0 : Disk) :
    Machine (State Tid DiskDevice Request Mem) (Event Tid Request Unit) :=
  Driver.machine disk (· = ⟨false, d0⟩)

/-- The sector numbers of the calls are in range. -/
abbrev InRange (e : Event Tid Request Unit) : Prop := e.Valid fun q => Disk.IsSector q.sectorNumber

/-- The data of a request to write sector `s`. -/
def written (s : ℤ) : Seen Tid Request Mem → Option Mem
  | .requested _ _ (.writeSector s' data) _ => if s' = s then some data else none
  | _ => none

/-- What the last write to a sector put there, or what was there at the start. -/
def lastWrite (d0 : Disk) (s : ℤ) (h : List (Seen Tid Request Mem)) : Mem :=
  (h.filterMap (written s)).getLast?.getD (d0 s)

/-- Reads have the data of the last write before them. -/
def ReadsLast (d0 : Disk) (before : List (Seen Tid Request Mem)) : Seen Tid Request Mem → Prop
  | .requested _ _ (.readSector s _) r => r.Agree Disk.sectorSize (lastWrite d0 s before)
  | _ => True

/-- What is seen in order: requests are numbered upward, and a call returns after the interrupt
for its own request; a read then has the data of the last write before the request. -/
def Serialised (d0 : Disk) (h : List (Seen Tid Request Mem)) : Seen Tid Request Mem → Prop
  | .requested _ n _ _ => ∀ t m q r, .requested t m q r ∈ h → m < n
  | .returned t n q r => ∃ before after, h = before ++ .requested t n q r :: after ∧
      .done n ∈ after ∧
      ∀ s data, q = .readSector s data → r.Agree Disk.sectorSize (lastWrite d0 s before)
  | _ => True

theorem serves : Serves disk (fun q => Disk.IsSector q.sectorNumber)
    (fun d => d.active = false) where
  request d q env hready hs := by
    cases q with
    | readSector s data =>
      have hs : Disk.IsSector s := hs
      simp only [disk, request, hready, Bool.false_eq_true, if_false, Disk.readSector_eq hs]
      rfl
    | writeSector s data =>
      have hs : Disk.IsSector s := hs
      simp only [disk, request, hready, Bool.false_eq_true, if_false, Disk.writeSector_eq hs]
      rfl
  finish d := rfl

section Last
variable {d0 : Disk} {s : ℤ} {h : List (Seen Tid Request Mem)} {x : Seen Tid Request Mem}

theorem lastWrite_concat :
    lastWrite d0 s (h ++ [x]) = (written s x).getD (lastWrite d0 s h) := by
  rw [lastWrite, List.filterMap_append]
  cases hx : written s x with
  | none => simp [hx, lastWrite]
  | some data => simp [hx]

theorem lastWrite_concat_none (hx : written s x = none) :
    lastWrite d0 s (h ++ [x]) = lastWrite d0 s h := by
  rw [lastWrite_concat, hx]
  rfl

end Last

/-- The sectors hold what was last written to them, and every read saw that. -/
structure Current (d0 : Disk) (d : DiskDevice) (h : List (Seen Tid Request Mem)) : Prop where
  sectors : ∀ s, (d.sectors s).Agree Disk.sectorSize (lastWrite d0 s h)
  reads : EachAfter (ReadsLast d0) h

theorem Current.silent {d0 : Disk} {d d' : DiskDevice} {h : List (Seen Tid Request Mem)}
    {x : Seen Tid Request Mem} (hc : Current d0 d h) (hd : d'.sectors = d.sectors)
    (hx : ∀ s, written s x = none) (hr : ReadsLast d0 h x) : Current d0 d' (h ++ [x]) where
  sectors s := by
    rw [hd, lastWrite_concat_none (hx s)]
    exact hc.sectors s
  reads := hc.reads.concat hr

theorem current_readSector {d0 : Disk} {d d' : DiskDevice} {h : List (Seen Tid Request Mem)}
    {t : Tid} {n : ℕ} {s : ℤ} {data r : Mem} (hc : Current d0 d h)
    (hq : request d (.readSector s data) () = some (d', r)) :
    Current d0 d' (h ++ [.requested t n (.readSector s data) r]) := by
  obtain ⟨-, hq⟩ := Option.ite_none_left_eq_some.mp hq
  obtain ⟨m, hm, hq⟩ := Option.map_eq_some_iff.mp hq
  cases hq
  obtain ⟨-, hm⟩ := Option.ite_none_right_eq_some.mp hm
  cases hm
  exact hc.silent rfl (fun _ => rfl) (Mem.agree_copy.trans (hc.sectors s))

theorem current_writeSector {d0 : Disk} {d d' : DiskDevice} {h : List (Seen Tid Request Mem)}
    {t : Tid} {n : ℕ} {s : ℤ} {data r : Mem} (hc : Current d0 d h)
    (hq : request d (.writeSector s data) () = some (d', r)) :
    Current d0 d' (h ++ [.requested t n (.writeSector s data) r]) := by
  obtain ⟨-, hq⟩ := Option.ite_none_left_eq_some.mp hq
  obtain ⟨sectors, hm, hq⟩ := Option.map_eq_some_iff.mp hq
  cases hq
  obtain ⟨-, hm⟩ := Option.ite_none_right_eq_some.mp hm
  cases hm
  refine ⟨?_, hc.reads.concat trivial⟩
  intro s'
  rw [lastWrite_concat, written]
  change ((Function.update _ _ _ : Disk) s').Agree _ _
  by_cases hs : s = s'
  · rw [hs, if_pos rfl, Function.update_self]
    exact Mem.agree_copy
  · rw [if_neg hs, Function.update_of_ne (Ne.symm hs)]
    exact hc.sectors s'

theorem explains (d0 : Disk) : Explains disk fun d (h : List (Seen Tid Request Mem)) => Current d0 d h where
  request {d d' h t n q e r} hc hq := by
    cases q with
    | readSector s data => exact current_readSector hc hq
    | writeSector s data => exact current_writeSector hc hq
  finish hc := hc.silent rfl (fun _ => rfl) trivial
  passed hc := hc.silent rfl (fun _ => rfl) trivial
  returned hc := hc.silent rfl (fun _ => rfl) trivial

theorem serialised_of_inOrder {d0 : Disk} {h : List (Seen Tid Request Mem)}
    (ho : EachAfter InOrder h) (hr : EachAfter (ReadsLast d0) h) :
    EachAfter (Serialised d0) h := by
  intro before x after heq
  have hx := ho before x after heq
  cases x with
  | requested t n q r => exact hx
  | returned t n q r =>
    rcases hx with ⟨l₁, l₂, hbefore, hdone⟩
    refine ⟨l₁, l₂, hbefore, hdone, ?_⟩
    rintro s data rfl
    apply hr l₁ (.requested t n (.readSector s data) r)
      (l₂ ++ .returned t n (.readSector s data) r :: after)
    rw [heq, hbefore, List.append_assoc, List.cons_append]
  | done n | passed t n => trivial

/-- The disk never gets a request while it is active, requests and interrupts alternate, every
call returns after the interrupt for its own request, and reads see the last write. -/
theorem synch_disk_serialises [DecidableEq Tid] [Fintype Tid] (d0 : Disk)
    {p : State Tid DiskDevice Request Mem × List (Seen Tid Request Mem)}
    (hr : ((machine d0).observe (State.seen disk)).Reach (fun _ e => InRange e) p) :
    (∀ t, p.1.pc t ≠ .assertFailed) ∧ (p.1.done.value = 0 ∨ p.1.done.value = 1) ∧
      (∃ phase, Rounds phase p.2) ∧ EachAfter (Serialised d0) p.2 := by
  have h0 : ∀ d : DiskDevice, d = ⟨false, d0⟩ → d.active = false := by
    rintro d rfl
    rfl
  have hi := inv_reach serves h0 (fun _ _ he => he) hr
  have ha := answers_reach serves h0 (fun _ _ he => he) hr
  have hc : Current d0 p.1.device p.2 := by
    apply (explains d0).reach ?_ hr
    rintro d rfl
    exact ⟨fun s => fun _ _ => rfl, .nil⟩
  obtain ⟨phase, hrounds, hp⟩ := hi.rounds
  exact ⟨hi.fine, hp.value, ⟨phase, hrounds⟩, serialised_of_inOrder ha.ordered hc.reads⟩

/-- A disk of zeros, before any call. -/
def opened : State (Fin 2) DiskDevice Request Mem :=
  ⟨⟨⟨1, []⟩, none⟩, ⟨0, []⟩, ⟨false, fun _ _ => 0⟩, [], 0, fun _ => .outside none⟩

/-- Thread 1 reads the sector that thread 0 is writing. -/
def writeRead : List (Event (Fin 2) Request Unit) :=
  [.call t0 (.writeSector 3 fun _ => 7), .call t1 (.readSector 3 fun _ => 0), .step t0 (),
    .step t0 (), .step t0 (), .step t1 (), .step t0 (), .interrupt 0, .step t0 (), .step t0 (),
    .step t0 (), .step t1 (), .step t1 (), .step t1 (), .interrupt 1, .step t1 (), .step t1 (),
    .step t1 ()]

theorem synch_disk_serialises_two :
    ∃ p, ((machine fun _ _ => 0).observe (State.seen disk)).run (opened, []) writeRead = some p ∧
      (∀ t, p.1.pc t ≠ .assertFailed) ∧ (p.1.done.value = 0 ∨ p.1.done.value = 1) ∧
      p.2.length = 8 ∧ EachAfter (Serialised fun _ _ => 0) p.2 := by
  have h0 : ((machine fun _ _ => 0).observe (State.seen disk)).init (opened, []) :=
    ⟨⟨rfl, rfl, rfl, rfl, fun _ => rfl⟩, rfl⟩
  have hr : ((machine fun _ _ => 0).observe (State.seen disk)).Reach (fun _ e => InRange e) _ :=
    Machine.Reach.run (.init h0) (show Machine.Meets _ _ _ writeRead by decide) rfl
  have hs := synch_disk_serialises _ hr
  exact ⟨_, rfl, hs.1, hs.2.1, rfl, hs.2.2.2⟩

end SynchDisk
end Coursework.Nachos
