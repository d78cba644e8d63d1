import Coursework.Lib.Rotation
import Coursework.Nachos.Disk
import Mathlib.Algebra.Order.Group.Abs

/-!
# How long a request takes, after `disk.cc`

The sectors of a track go round under the head, and the head crosses the tracks. A request is done
when its sector has gone by. What has gone by since the head came to the track is in the track
buffer, and reading it takes the time of the transfer alone.
-/
namespace Coursework.Nachos.Disk
open Wheel

def rotationTime : ℤ := 500

def seekTime : ℤ := 500

/-- The fields of class `Disk` that the times depend on. -/
structure Head where
  lastSector : ℤ
  bufferInit : ℤ

/-- `TimeToSeek`: the seek and `*rotation`. -/
def Head.timeToSeek (d : Head) (totalTicks newSector : ℤ) : ℤ × ℤ :=
  let newTrack := newSector.tdiv sectorsPerTrack
  let oldTrack := d.lastSector.tdiv sectorsPerTrack
  let seek := |newTrack - oldTrack| * seekTime
  let beyond := (totalTicks + seek).tmod rotationTime
  (seek, if beyond > 0 then rotationTime - beyond else 0)

def moduloDiff (toSector fromSector : ℤ) : ℤ :=
  let toOffset := toSector.tmod sectorsPerTrack
  let fromOffset := fromSector.tmod sectorsPerTrack
  ((toOffset - fromOffset) + sectorsPerTrack).tmod sectorsPerTrack

/-- `ComputeLatency`, compiled with the track buffer. -/
def Head.computeLatency (d : Head) (totalTicks newSector : ℤ) (writing : Bool) : ℤ :=
  let (seek, rotation) := d.timeToSeek totalTicks newSector
  let timeAfter := totalTicks + seek + rotation
  if writing = false ∧ seek = 0 ∧ (timeAfter - d.bufferInit).tdiv rotationTime >
      moduloDiff newSector (d.bufferInit.tdiv rotationTime) then rotationTime
  else
    seek + (rotation + moduloDiff newSector (timeAfter.tdiv rotationTime) * rotationTime) +
      rotationTime

def Head.updateLast (d : Head) (totalTicks newSector : ℤ) : Head :=
  let (seek, rotate) := d.timeToSeek totalTicks newSector
  { bufferInit := if seek ≠ 0 then totalTicks + seek + rotate else d.bufferInit
    lastSector := newSector }

/-! ### Where the head is -/

/-- A request, when it is made. -/
structure Request where
  start : ℤ
  sector : ℤ
  writing : Bool

def track (sector : ℤ) : ℤ := sector / sectorsPerTrack

/-- The track that the head goes to, and the one it is on at each time, if it is on any. -/
structure Motion where
  track : ℤ
  place : ℤ → Option ℤ

/-- The head is moving until it comes to the track. -/
def Motion.request (p : Motion) (r : Request) : Motion where
  track := Disk.track r.sector
  place t :=
    if t < r.start then p.place t
    else if t < r.start + |Disk.track r.sector - p.track| * seekTime then none
    else some (Disk.track r.sector)

/-- The head is on the first track when the clock starts. -/
def motion (h : List Request) : Motion :=
  h.foldl Motion.request ⟨0, fun t => if 0 ≤ t then some 0 else none⟩

/-- The sector began to go by before `now`, and the head has not left the track since then. -/
def Buffered (h : List Request) (now sector : ℤ) : Prop :=
  ∃ u, u < now ∧ PassesAt rotationTime sectorsPerTrack sector u ∧
    ∀ t, u ≤ t → t ≤ now → (motion h).place t = some (track sector)

/-- The sector goes by the head after the request and up to the time `e`. -/
def Transfers (h : List Request) (r : Request) (e : ℤ) : Prop :=
  ∃ u, r.start ≤ u ∧ u + rotationTime ≤ e ∧ PassesAt rotationTime sectorsPerTrack r.sector u ∧
    ∀ t, u ≤ t → t < u + rotationTime → (motion (h ++ [r])).place t = some (track r.sector)

/-- The fields agree with where the head has been. -/
structure Head.Follows (d : Head) (h : List Request) : Prop where
  sector : IsSector d.lastSector
  track : (motion h).track = track d.lastSector
  nonneg : 0 ≤ d.bufferInit
  aligned : ∃ k, d.bufferInit = k * rotationTime
  there : ∀ t, d.bufferInit ≤ t → (motion h).place t = some (Disk.track d.lastSector)
  away : ∀ k, k * rotationTime < d.bufferInit →
    ∃ t, k * rotationTime ≤ t ∧ t < d.bufferInit ∧
      (motion h).place t ≠ some (Disk.track d.lastSector)

variable {d : Head} {h : List Request} {now sector : ℤ} {writing : Bool}

theorem rotationTime_pos : 0 < rotationTime := by decide

theorem motion_concat (h : List Request) (r : Request) :
    motion (h ++ [r]) = (motion h).request r := by
  rw [motion, List.foldl_append]
  rfl

/-! ### The parts of a request -/

/-- The time for the way to the track of a sector. -/
def Head.seek (d : Head) (newSector : ℤ) : ℤ :=
  |track newSector - track d.lastSector| * seekTime

theorem seek_nonneg : 0 ≤ d.seek sector := mul_nonneg (abs_nonneg _) (by decide)

theorem seek_eq_zero : d.seek sector = 0 ↔ track sector = track d.lastSector := by
  rw [Head.seek, mul_eq_zero, abs_eq_zero, sub_eq_zero]
  exact or_iff_left (by decide)

theorem timeToSeek_eq (hlast : IsSector d.lastSector) (hs : IsSector sector) (hnow : 0 ≤ now) :
    (d.timeToSeek now sector).1 = d.seek sector ∧
      now + (d.timeToSeek now sector).1 + (d.timeToSeek now sector).2 =
        boundary rotationTime (now + d.seek sector) := by
  have hseek : (d.timeToSeek now sector).1 = d.seek sector := by
    rw [Head.timeToSeek, Int.tdiv_eq_ediv_of_nonneg hs.1, Int.tdiv_eq_ediv_of_nonneg hlast.1]
    rfl
  refine ⟨hseek, ?_⟩
  have hnonneg := @seek_nonneg d sector
  have hrotate : (d.timeToSeek now sector).2 =
      if (now + (d.timeToSeek now sector).1).tmod rotationTime > 0 then
        rotationTime - (now + (d.timeToSeek now sector).1).tmod rotationTime else 0 := rfl
  rw [hrotate, hseek, Int.tmod_eq_emod_of_nonneg (by omega), boundary]

theorem moduloDiff_eq {toSector fromSector : ℤ} (hto : 0 ≤ toSector) (hfrom : 0 ≤ fromSector) :
    moduloDiff toSector fromSector = (toSector - fromSector) % sectorsPerTrack := by
  rw [moduloDiff, Int.tmod_eq_emod_of_nonneg hto, Int.tmod_eq_emod_of_nonneg hfrom,
    Int.tmod_eq_emod_of_nonneg, Int.add_emod_right, ← Int.sub_emod]
  simp only [sectorsPerTrack]
  omega

/-- Without the track buffer the request is done when the sector has gone by after the seek. -/
theorem latency_eq_passed (hlast : IsSector d.lastSector) (hs : IsSector sector) (hnow : 0 ≤ now) :
    now + ((d.timeToSeek now sector).1 + ((d.timeToSeek now sector).2 +
      moduloDiff sector ((now + (d.timeToSeek now sector).1 +
        (d.timeToSeek now sector).2).tdiv rotationTime) * rotationTime) + rotationTime) =
      passed rotationTime sectorsPerTrack sector (now + d.seek sector) := by
  obtain ⟨-, hafter⟩ := timeToSeek_eq hlast hs hnow
  have hnonneg : 0 ≤ boundary rotationTime (now + d.seek sector) :=
    le_trans (add_nonneg hnow seek_nonneg) (le_boundary rotationTime_pos)
  rw [hafter, Int.tdiv_eq_ediv_of_nonneg hnonneg,
    moduloDiff_eq hs.1 (Int.ediv_nonneg hnonneg rotationTime_pos.le), passed, ← hafter]
  omega

/-- The test for the track buffer, on a track where the head is. -/
theorem buffer_test_iff (hf : d.Follows h) (hs : IsSector sector) (hbuf : d.bufferInit ≤ now)
    (hseek : d.seek sector = 0) :
    (now + (d.timeToSeek now sector).1 + (d.timeToSeek now sector).2 - d.bufferInit).tdiv
        rotationTime > moduloDiff sector (d.bufferInit.tdiv rotationTime) ↔
      passed rotationTime sectorsPerTrack sector d.bufferInit ≤ boundary rotationTime now := by
  have hnow := hf.nonneg.trans hbuf
  obtain ⟨-, hafter⟩ := timeToSeek_eq hf.sector hs hnow
  obtain ⟨k, hk⟩ := hf.aligned
  obtain ⟨j, hj, -⟩ := @boundary_eq _ now rotationTime_pos
  have hle : d.bufferInit ≤ boundary rotationTime now := hbuf.trans (le_boundary rotationTime_pos)
  have hself : boundary rotationTime d.bufferInit = k * rotationTime := by
    rw [boundary, hk, Int.mul_emod_left, if_neg (lt_irrefl 0), add_zero]
  have hk0 : 0 ≤ k := nonneg_of_mul_nonneg_left (hk ▸ hf.nonneg) rotationTime_pos
  rw [hafter, hseek, add_zero, Int.tdiv_eq_ediv_of_nonneg (sub_nonneg.mpr hle),
    Int.tdiv_eq_ediv_of_nonneg hf.nonneg, passed, hself, hj, hk, ← sub_mul,
    Int.mul_ediv_cancel _ rotationTime_pos.ne', Int.mul_ediv_cancel _ rotationTime_pos.ne',
    moduloDiff_eq hs.1 hk0]
  simp only [rotationTime]
  omega

/-- The test finds out whether the sector is in the track buffer. -/
theorem buffered_iff (hf : d.Follows h) (hbuf : d.bufferInit ≤ now) :
    Buffered h now sector ↔ d.seek sector = 0 ∧
      passed rotationTime sectorsPerTrack sector d.bufferInit ≤ boundary rotationTime now := by
  have hn : (1 : ℤ) < sectorsPerTrack := by decide
  rw [seek_eq_zero]
  constructor
  · rintro ⟨u, hu, hpass, hplace⟩
    obtain ⟨k, rfl, -⟩ := (passesAt_iff rotationTime_pos hn).mp hpass
    have htrack : track sector = track d.lastSector :=
      Option.some.inj ((hplace now hu.le le_rfl).symm.trans (hf.there now hbuf))
    have hle : d.bufferInit ≤ k * rotationTime := by
      by_contra hlt
      obtain ⟨t, ht, hlast, hne⟩ := hf.away k (not_le.mp hlt)
      exact hne (htrack ▸ hplace t ht (by omega))
    exact ⟨htrack, (passed_le rotationTime_pos hn hpass hle).trans
      ((mul_lt_iff rotationTime_pos).mp hu)⟩
  · rintro ⟨htrack, hpassed⟩
    obtain ⟨k, hk, hmod, hle, -⟩ :=
      @passed_eq rotationTime sectorsPerTrack sector d.bufferInit rotationTime_pos (by decide)
    refine ⟨k * rotationTime, (mul_lt_iff rotationTime_pos).mpr (hk ▸ hpassed),
      passesAt_mul rotationTime_pos hmod, fun t ht _ => ?_⟩
    rw [htrack]
    exact hf.there t (hle.trans ht)

/-! ### Requests -/

/-- A read of what is in the track buffer takes the time of a transfer. -/
theorem latency_of_buffered (hf : d.Follows h) (hs : IsSector sector) (hbuf : d.bufferInit ≤ now)
    (hb : Buffered h now sector) : d.computeLatency now sector false = rotationTime := by
  obtain ⟨hseek, hpassed⟩ := (buffered_iff hf hbuf).mp hb
  have hzero := (timeToSeek_eq hf.sector hs (hf.nonneg.trans hbuf)).1.trans hseek
  exact if_pos ⟨rfl, hzero, (buffer_test_iff hf hs hbuf hseek).mpr hpassed⟩

/-- Any other request is done when its sector has gone by. -/
theorem latency_of_not_buffered (hf : d.Follows h) (hs : IsSector sector)
    (hbuf : d.bufferInit ≤ now) (hb : ¬ (writing = false ∧ Buffered h now sector)) :
    now + d.computeLatency now sector writing =
      passed rotationTime sectorsPerTrack sector (now + d.seek sector) := by
  have hnow := hf.nonneg.trans hbuf
  rw [← latency_eq_passed hf.sector hs hnow]
  congr 1
  apply if_neg
  rintro ⟨hreading, hzero, htest⟩
  have hseek := (timeToSeek_eq hf.sector hs hnow).1.symm.trans hzero
  exact hb ⟨hreading, (buffered_iff hf hbuf).mpr
    ⟨hseek, (buffer_test_iff hf hs hbuf hseek).mp htest⟩⟩

/-- The first time by which the sector goes by the head. -/
theorem isLeast_transfers (hf : d.Follows h) :
    IsLeast {e | Transfers h ⟨now, sector, writing⟩ e}
      (passed rotationTime sectorsPerTrack sector (now + d.seek sector)) := by
  have hplace (t : ℤ) (ht : now ≤ t) : (motion (h ++ [⟨now, sector, writing⟩])).place t =
      if t < now + d.seek sector then none else some (track sector) := by
    rw [motion_concat, Motion.request, hf.track]
    exact if_neg (not_lt.mpr ht)
  constructor
  · obtain ⟨u, hu, hle, hpass⟩ := @passesAt_passed rotationTime sectorsPerTrack sector
      (now + d.seek sector) rotationTime_pos (by decide)
    have hnonneg := @seek_nonneg d sector
    refine ⟨u, by dsimp only; omega, hu.ge, hpass, fun t ht _ => ?_⟩
    rw [hplace t (by omega), if_neg (by omega)]
  · rintro e ⟨u, hstart, hend, hpass, hon⟩
    have hle : now + d.seek sector ≤ u := by
      by_contra hlt
      have hat := hon u le_rfl (lt_add_of_pos_right u rotationTime_pos)
      rw [hplace u hstart, if_pos (not_le.mp hlt)] at hat
      cases hat
    exact (passed_le rotationTime_pos (by decide) hpass hle).trans hend

/-- The bounds of a latency: one sector, or all tracks and all sectors of a track. -/
theorem latency_bounds (hf : d.Follows h) (hs : IsSector sector) (hbuf : d.bufferInit ≤ now) :
    rotationTime ≤ d.computeLatency now sector writing ∧
      d.computeLatency now sector writing <
        (numTracks - 1) * seekTime + (sectorsPerTrack + 1) * rotationTime := by
  by_cases hb : writing = false ∧ Buffered h now sector
  · obtain ⟨rfl, hb⟩ := hb
    rw [latency_of_buffered hf hs hbuf hb]
    decide
  · have heq := latency_of_not_buffered hf hs hbuf hb
    have hbounds := @passed_bounds rotationTime sectorsPerTrack sector (now + d.seek sector)
      rotationTime_pos (by decide)
    have hnonneg := @seek_nonneg d sector
    have htracks : |track sector - track d.lastSector| ≤ numTracks - 1 := by
      have hlast := hf.sector
      rw [IsSector] at hlast hs
      simp only [track, numSectors, sectorsPerTrack, numTracks] at hlast hs ⊢
      refine abs_le.mpr ⟨?_, ?_⟩
      · omega
      · omega
    have hseek : d.seek sector ≤ (numTracks - 1) * seekTime :=
      mul_le_mul_of_nonneg_right htracks (by decide)
    omega

/-- What the fields say after a request. -/
theorem Head.Follows.updateLast (hf : d.Follows h) (hs : IsSector sector)
    (hbuf : d.bufferInit ≤ now) :
    (d.updateLast now sector).Follows (h ++ [⟨now, sector, writing⟩]) ∧
      (d.updateLast now sector).bufferInit ≤ now + d.computeLatency now sector writing := by
  have hnow := hf.nonneg.trans hbuf
  obtain ⟨hseek, hafter⟩ := timeToSeek_eq hf.sector hs hnow
  have hupdate : d.updateLast now sector = ⟨sector, if (d.timeToSeek now sector).1 ≠ 0 then
      now + (d.timeToSeek now sector).1 + (d.timeToSeek now sector).2 else d.bufferInit⟩ := rfl
  rw [hseek] at hupdate hafter
  rw [hafter] at hupdate
  have htrack : (motion (h ++ [⟨now, sector, writing⟩])).track = Disk.track sector := by
    rw [motion_concat]
    rfl
  have hplace (t : ℤ) : (motion (h ++ [⟨now, sector, writing⟩])).place t =
      if t < now then (motion h).place t
      else if t < now + d.seek sector then none else some (Disk.track sector) := by
    rw [motion_concat, Motion.request, hf.track]
    rfl
  by_cases hzero : d.seek sector = 0
  · have hsame := seek_eq_zero.mp hzero
    rw [if_neg (not_not.mpr hzero)] at hupdate
    rw [hupdate]
    refine ⟨⟨hs, htrack, hf.nonneg, hf.aligned, fun t ht => ?_, fun k hk => ?_⟩, ?_⟩
    · rw [hplace, hzero, add_zero]
      split_ifs
      · rw [hf.there t ht, hsame]
      · rfl
    · obtain ⟨t, ht, hlt, hne⟩ := hf.away k hk
      refine ⟨t, ht, hlt, ?_⟩
      rwa [hplace, if_pos (hlt.trans_le hbuf), hsame]
    · have hpos := (@latency_bounds d h now sector writing hf hs hbuf).1
      have hr := rotationTime_pos
      dsimp only
      omega
  · rw [if_pos hzero] at hupdate
    obtain ⟨k, hk, hle, hlt⟩ := @boundary_eq _ (now + d.seek sector) rotationTime_pos
    have hnonneg := @seek_nonneg d sector
    rw [hupdate]
    refine ⟨⟨hs, htrack, ?_, ⟨k, hk⟩, fun t ht => ?_, fun j hj => ?_⟩, ?_⟩
    · dsimp only
      rw [hk]
      omega
    · dsimp only at ht
      rw [hplace, if_neg (by omega), if_neg (by omega)]
    · -- the head is on its way when a sector goes by that began before
      have hjk : j * rotationTime < now + d.seek sector := by
        dsimp only at hj
        rw [hk] at hj
        have hjk := lt_of_mul_lt_mul_right hj rotationTime_pos.le
        have hj1 : j ≤ k - 1 := by omega
        exact (mul_le_mul_of_nonneg_right hj1 rotationTime_pos.le).trans_lt hlt
      refine ⟨max (j * rotationTime) now, le_max_left _ _, ?_, ?_⟩
      · dsimp only
        omega
      · rw [hplace, if_neg (not_lt.mpr (le_max_right _ _)), if_pos (max_lt hjk (by omega))]
        nofun
    · have heq := @latency_of_not_buffered d h now sector writing hf hs hbuf fun hb =>
        hzero ((buffered_iff hf hbuf).mp hb.2).1
      have hpassed := @passed_eq rotationTime sectorsPerTrack sector (now + d.seek sector)
        rotationTime_pos (by decide)
      obtain ⟨i, hi, -, hge, -⟩ := hpassed
      have hend := (boundary_le_iff rotationTime_pos).mpr hge
      have hr := rotationTime_pos
      dsimp only
      omega

end Coursework.Nachos.Disk
