import Coursework.Nachos.Devices.TimeSlice

/-!
# When the disk is done

The interrupt for a request is due when its sector has gone by the head, or after the transfer
alone where the track buffer has it. Until then the disk is active, and it takes no other request.
As before, the clock does not overflow.
-/
namespace Coursework.Nachos.Devices
open Interrupt Disk

variable {Other : Type} {randomize : Bool} {s s' : State Other}
  {p p' : State Other × List Request} {e : Event Other} {sector : ℤ} {writing : Bool}

/-- The requests, with their times. -/
def see (s : State Other) : Event Other → List Request
  | .request sectorNumber writing => [⟨s.interrupt.totalTicks, sectorNumber, writing⟩]
  | _ => []

/-- The fields of the disk agree with the requests, and with the interrupt that is outstanding. -/
structure DiskInv (p : State Other × List Request) : Prop where
  head : p.1.head.Follows p.2
  idle : p.1.active = false →
    mine p.1.interrupt .disk = [] ∧ p.1.head.bufferInit ≤ p.1.interrupt.totalTicks
  busy : p.1.active = true →
    ∃ x, mine p.1.interrupt .disk = [x] ∧ p.1.head.bufferInit ≤ x.when

/-- Nothing happens to the disk. -/
theorem DiskInv.others {i : Interrupt.State (Handler Other)}
    {gone new : List (PendingInterrupt (Handler Other))} (hd : DiskInv p)
    (hi : Inv randomize p.1) (hm : Moved p.1.interrupt i gone new)
    (hgone : ∀ x ∈ gone, x.handler.device? ≠ some .disk)
    (hnew : ∀ x ∈ new, x.handler.device? ≠ some .disk) (started : Poll → Bool) :
    DiskInv (⟨i, started, p.1.head, p.1.active⟩, p.2) := by
  have hperm := mine_others hm hgone hnew
  have htotal := hm.total hi.reach
  refine ⟨hd.head, fun hno => ?_, fun hyes => ?_⟩
  · obtain ⟨hnone, hle⟩ := hd.idle hno
    rw [hnone] at hperm
    exact ⟨hperm.eq_nil, hle.trans htotal⟩
  · obtain ⟨x, hone, hle⟩ := hd.busy hyes
    rw [hone] at hperm
    exact ⟨x, hperm.eq_singleton, hle⟩

/-- The interrupt of a request that is made. -/
theorem request_mine (hd : DiskInv p)
    (hs : p.1.step randomize (.request sector writing) = some s') :
    IsSector sector ∧ p.1.head.bufferInit ≤ p.1.interrupt.totalTicks ∧
      ∃ x, mine s'.interrupt .disk = [x] ∧ x.when = p.1.interrupt.totalTicks +
        p.1.head.computeLatency p.1.interrupt.totalTicks sector writing := by
  cases stepped_of_step hs with
  | @request _ _ i x hpc hpc' hidle hsector hhandler htype hwhen hmoved =>
    obtain ⟨hnone, hle⟩ := hd.idle hidle
    have hperm := mine_new hmoved hhandler
    rw [hnone] at hperm
    exact ⟨hsector, hle, x, hperm.eq_singleton, hwhen⟩

/-- The interrupt that is handled for the disk is that of its request, and it is due. -/
theorem handled_disk {i : Interrupt.State (Handler Other)} {y : PendingInterrupt (Handler Other)}
    {old : MachineStatus} {k : Caller} (hd : DiskInv p) (hi : Inv randomize p.1)
    (hpc : p.1.interrupt.pc = .handler y old k) (hy : y.handler = .device .disk)
    (hm : Moved p.1.interrupt i [y] []) :
    mine p.1.interrupt .disk = [y] ∧ mine i .disk = [] ∧
      p.1.head.bufferInit ≤ y.when ∧ y.when ≤ p.1.interrupt.totalTicks := by
  have hcurrent : y ∈ p.1.interrupt.pc.current := by
    rw [hpc]
    exact List.mem_cons_self
  have hmem : y ∈ mine p.1.interrupt .disk :=
    mem_mine.mpr ⟨List.mem_append_left _ hcurrent, by rw [hy]; rfl⟩
  have hactive : p.1.active = true := by
    by_contra hno
    rw [(hd.idle (Bool.eq_false_iff.mpr hno)).1] at hmem
    cases hmem
  obtain ⟨x, hone, hle⟩ := hd.busy hactive
  rw [hone, List.mem_singleton] at hmem
  subst hmem
  have hperm := mine_gone hm hy
  rw [hone] at hperm
  exact ⟨hone, hperm.cons_inv.eq_nil, hle, ((timely_reach hi.reach).current y hcurrent).1⟩

theorem diskInv_step (hd : DiskInv p) (hi : Inv randomize p.1)
    (hs : p.1.step randomize e = some s') : DiskInv (s', p.2 ++ see p.1 e) := by
  cases stepped_of_step hs with
  | queue hstep hcurrent hmoved hgone hnew =>
    change DiskInv (_, p.2 ++ [])
    rw [List.append_nil]
    exact hd.others hi hmoved
      (fun x hx => ne_of_eq_of_ne (hgone x hx) (Option.some_ne_none Device.disk).symm)
      (fun x hx => ne_of_eq_of_ne (hnew x hx).1 (Option.some_ne_none Device.disk).symm) _
  | start hpc hpc' hno hhandler htype hwhen hmoved =>
    change DiskInv (_, p.2 ++ [])
    rw [List.append_nil]
    exact hd.others hi hmoved (List.forall_mem_nil _)
      (ne_device hhandler fun h => Device.noConfusion h) _
  | @request sector writing i x hpc hpc' hidle hsector hhandler htype hwhen hmoved =>
    obtain ⟨-, hbuf, y, hone, hy⟩ := request_mine hd hs
    obtain ⟨hfollows, hle⟩ := @Head.Follows.updateLast _ _ _ _ writing hd.head hsector hbuf
    exact ⟨hfollows, fun h => Bool.noConfusion h, fun _ => ⟨y, hone, hle.trans hy.ge⟩⟩
  | poll hpc hy hhandler htype hwhen hpc' hyield hmoved =>
    change DiskInv (_, p.2 ++ [])
    rw [List.append_nil]
    exact hd.others hi hmoved (ne_device hy fun h => Device.noConfusion h)
      (ne_device hhandler fun h => Device.noConfusion h) _
  | disk hpc hy hpc' hyield hmoved =>
    obtain ⟨-, hnone, hle, hdue⟩ := handled_disk hd hi hpc hy hmoved
    change DiskInv (_, p.2 ++ [])
    rw [List.append_nil]
    exact ⟨hd.head, fun _ => ⟨hnone, hle.trans (hdue.trans (hmoved.total hi.reach))⟩,
      fun h => Bool.noConfusion h⟩

theorem follows_start : (⟨0, 0⟩ : Head).Follows [] where
  sector := by decide
  track := rfl
  nonneg := le_rfl
  aligned := ⟨0, rfl⟩
  there t ht := if_pos ht
  away k hk := by
    refine ⟨k * rotationTime, le_rfl, hk, ?_⟩
    have hnone : (motion []).place (k * rotationTime) = none := if_neg (not_le.mpr hk)
    rw [hnone]
    nofun

theorem diskInv_reach (hr : ((machine randomize).observe see).Reachable p) :
    Inv randomize p.1 ∧ DiskInv p := by
  refine ⟨inv_reach hr.forget, ?_⟩
  apply hr.invariant DiskInv
  · rintro ⟨s, h⟩ ⟨hs, rfl⟩
    have hs : Start s := hs
    have hnone : mine s.interrupt .disk = [] := by
      rw [mine, outstanding, hs.interrupt.pc, hs.interrupt.pending]
      rfl
    refine ⟨?_, fun _ => ⟨hnone, ?_⟩, fun h => ?_⟩
    · rw [hs.head]
      exact follows_start
    · rw [hs.head, hs.interrupt.ticks.1]
    · cases hs.active.symm.trans h
  · intro p e p' hr hd _ hs
    obtain ⟨hstep, hseen⟩ := Machine.observe_step.mp hs
    have hd' := diskInv_step hd (inv_reach hr.forget) hstep
    rwa [← hseen] at hd'

/-! ### Requests -/

/-- The interrupts of the disk come when a disk that turns would be done. -/
structure OnTime (randomize : Bool) (p : State Other × List Request) : Prop where
  /-- There is one while the disk is active, and no other. -/
  outstanding : (p.1.active = true ∧ ∃ x, mine p.1.interrupt .disk = [x]) ∨
    p.1.active = false ∧ mine p.1.interrupt .disk = []
  /-- What has gone by the head on this track is read from the track buffer. -/
  buffered : ∀ sector s', p.1.step randomize (.request sector false) = some s' →
    Buffered p.2 p.1.interrupt.totalTicks sector →
      ∃ x, mine s'.interrupt .disk = [x] ∧ x.when = p.1.interrupt.totalTicks + rotationTime
  /-- Any other request is done as soon as its sector has gone by. -/
  turned : ∀ sector writing s', p.1.step randomize (.request sector writing) = some s' →
    ¬ (writing = false ∧ Buffered p.2 p.1.interrupt.totalTicks sector) →
      ∃ x, mine s'.interrupt .disk = [x] ∧
        IsLeast {t | Transfers p.2 ⟨p.1.interrupt.totalTicks, sector, writing⟩ t} x.when
  /-- The disk is not ready before. -/
  done : ∀ e s', p.1.step randomize e = some s' → p.1.active = true → s'.active = false →
    ∃ x, mine p.1.interrupt .disk = [x] ∧ x.when ≤ p.1.interrupt.totalTicks

/-- Along every run the disk is on time. -/
theorem disk_on_time (hr : ((machine randomize).observe see).Reachable p) :
    OnTime randomize p := by
  obtain ⟨hi, hd⟩ := diskInv_reach hr
  refine ⟨?_, ?_, ?_, ?_⟩
  · cases hactive : p.1.active with
    | true =>
      obtain ⟨x, hone, -⟩ := hd.busy hactive
      exact .inl ⟨rfl, x, hone⟩
    | false => exact .inr ⟨rfl, (hd.idle hactive).1⟩
  · intro sector s' hs hbuffered
    obtain ⟨hsector, hbuf, x, hone, hwhen⟩ := request_mine hd hs
    rw [latency_of_buffered hd.head hsector hbuf hbuffered] at hwhen
    exact ⟨x, hone, hwhen⟩
  · intro sector writing s' hs hno
    obtain ⟨hsector, hbuf, x, hone, hwhen⟩ := request_mine hd hs
    rw [latency_of_not_buffered hd.head hsector hbuf hno] at hwhen
    exact ⟨x, hone, hwhen ▸ isLeast_transfers hd.head⟩
  · intro e s' hs hactive hdone
    cases stepped_of_step hs with
    | queue | start | poll => cases hactive.symm.trans hdone
    | request => cases hdone
    | disk hpc hy hpc' hyield hmoved =>
      obtain ⟨hone, -, -, hdue⟩ := handled_disk hd hi hpc hy hmoved
      exact ⟨_, hone, hdue⟩

/-! ### Two sectors of a track -/

/-- A sector is requested, and the machine is idle until it has been transferred. -/
def transfer (sector : ℤ) : List (Event Unit) :=
  [.request sector false, .queue .idle, .queue .step, .handle 0, .queue .step]

/-- A sector is read again when the head has just gone past it. -/
theorem disk_on_time_again : ∃ p, ((machine true).observe see).run (initialState, [])
    (transfer 33 ++ transfer 34) = some p ∧ p.1.interrupt.totalTicks = 1500 ∧ OnTime true p ∧
      (p.1.step true (.request 33 false)).map (fun s => (mine s.interrupt .disk).map (·.when)) =
        some [2000] := by
  have h0 : ((machine true).observe see).Reachable (initialState, []) :=
    .init ⟨initialState_start, rfl⟩
  have hr : ((machine true).observe see).Reachable _ :=
    Machine.Reachable.run (transfer 33 ++ transfer 34) h0 rfl
  exact ⟨_, rfl, rfl, disk_on_time hr, rfl⟩

end Coursework.Nachos.Devices
