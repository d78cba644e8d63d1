import Coursework.Lib.Queue
import Coursework.Nachos.BoundedBuffer
import Coursework.Nachos.Monitor.Critical

/-!
# A `BoundedBuffer` is a queue of bytes

From the end of its waiting loop to its call of `Release` a thread holds the lock, and no
other thread is on that stretch. Only there do the fields change, so what the other
threads know does not depend on them. The invariant says how far the one thread has
come: its bytes lie behind the used ones, or it has the first of them.
-/
namespace Coursework.Nachos.BoundedBuffer
open Monitor

variable {Tid : Type} [DecidableEq Tid] {b b' : BoundedBuffer} {N hd u : ℕ} {k k' : Loc}
  {i : Input} {x : Call Cond} {h : List Done} {data got now now' : List UInt8} {size : ℤ}

def machine (maxSize : ℕ) : Machine (State Tid Cond Loc BoundedBuffer) (Event Tid Input) :=
  Monitor.machine code (New maxSize) (.outside none)

/-- `size` bytes are at `data`, and they may fit into the buffer. -/
def Input.Ok (maxSize : ℕ) : Input → Prop
  | .write data size => 0 ≤ size ∧ size ≤ maxSize ∧ size ≤ data.length
  | .read size => 0 ≤ size ∧ size ≤ intMax
  | .go => True

instance (maxSize : ℕ) (i : Input) : Decidable (i.Ok maxSize) := by
  cases i <;> unfold Input.Ok <;> infer_instance

def Done.written : Done → List UInt8
  | .write data => data
  | .read _ => []

def Done.returned : Done → List UInt8
  | .write _ => []
  | .read data => data

/-- `Release` is the last statement of `Write` and `Read`; a call is completed with it. -/
def Loc.completed : Loc → Input → List Done
  | .signalled done, .go => [done]
  | _, _ => []

def completed : State Tid Cond Loc BoundedBuffer → Event Tid Input → List Done :=
  State.seen Loc.completed

def Loc.inside : Loc → Bool
  | .outside _ | .assertFailed => false
  | _ => true

/-- After the loop around `Wait` and before `Release`. -/
def Loc.held : Loc → Bool
  | .copyingIn _ _ _ | .copyingOut _ _ | .signalled _ => true
  | _ => false

theorem inside_of_held (hk : k.held = true) : k.inside = true := by
  cases k <;> trivial

theorem disciplined : Disciplined code Loc.inside := by
  intro k b i x k' b' h
  unfold code at h
  split at h
  case h_1 =>
    split_ifs at h <;> cases h <;> simp [Keeps, Loc.inside]
  case h_3 | h_5 =>
    split at h <;> cases h <;> simp [Keeps, Loc.inside]
  case h_4 | h_6 =>
    split_ifs at h
    · split at h <;> cases h <;> simp [Keeps, Loc.inside]
    · split at h <;> cases h <;> simp [Keeps, Loc.inside]
  case h_2 | h_7 => cases h; simp [Keeps, Loc.inside]
  case h_8 => cases h

/-- The calls that lead to a held location leave the lock alone. -/
theorem stays_of_held (h : code k b i = some (x, k', b')) (hk' : k'.held = true) :
    x.stays = true := by
  unfold code at h
  split at h
  case h_1 =>
    split_ifs at h <;> cases h <;> cases hk'
  case h_3 | h_5 =>
    split at h <;> cases h <;> first | rfl | cases hk'
  case h_4 | h_6 =>
    split_ifs at h
    · split at h <;> cases h <;> rfl
    · split at h <;> cases h <;> rfl
  case h_2 | h_7 => cases h; cases hk'
  case h_8 => cases h

theorem lockedAt : LockedAt code Loc.inside Loc.held where
  disciplined := disciplined
  inside _ := inside_of_held
  stays _ _ _ _ _ _ := stays_of_held

/-! ### One thread past its waiting loop -/

/-- What completed calls returned, and then `bytes`, is what completed calls wrote. -/
def Settled (h : List Done) (bytes : List UInt8) : Prop :=
  h.flatMap Done.returned ++ bytes = h.flatMap Done.written

theorem Settled.move {d : Done} (hi : Settled h now) (hs : now ++ d.written = d.returned ++ now') :
    Settled (h ++ [d]) now' := by
  rw [Settled, List.flatMap_append, List.flatMap_append, List.flatMap_singleton,
    List.flatMap_singleton]
  exact fifo_step hi hs

/-- What a thread at a location knows of the buffer and of the completed calls. -/
def Fits (N hd u : ℕ) (b : BoundedBuffer) (h : List Done) : Loc → Prop
  | .outside _ => True
  | .writing data size => 0 ≤ size ∧ size ≤ data.length
  | .copyingIn data size i => ∃ n : ℕ, size = n ∧ i ≤ n ∧ n ≤ data.length ∧ u + n ≤ N ∧
      Settled h (window b.buffer hd u) ∧
      window b.buffer hd (u + i) = window b.buffer hd u ++ data.take i
  | .reading size => 0 ≤ size ∧ size ≤ intMax
  | .copyingOut size got => ∃ n : ℕ, size = n ∧ got.length ≤ n ∧ n ≤ u ∧
      Settled h (window b.buffer hd u) ∧ window b.buffer hd got.length = got
  | .signalled d => Settled (h ++ [d]) (window b.buffer hd u)
  | .assertFailed | .crashed => False

/-- Outside the stretch with the lock a thread knows its own arguments only. -/
theorem Fits.of_not_held {hd' u' : ℕ} {h' : List Done} (hk : Fits N hd u b h k)
    (hheld : k.held = false) : Fits N hd' u' b' h' k := by
  cases k with
  | outside | writing | reading => exact hk
  | copyingIn | copyingOut | signalled => cases hheld
  | assertFailed | crashed => exact hk

/-- The buffer is a ring again, and the thread that ran has come to `k`. -/
def Next (N : ℕ) (b : BoundedBuffer) (h : List Done) (k : Loc) : Prop :=
  ∃ hd u, b.Ring N hd u ∧ Fits N hd u b h k ∧
    (k.held = false → Settled h (window b.buffer hd u))

theorem writing_next (hr : b.Ring N hd u) (hk : Fits N hd u b h (.writing data size))
    (hs : Settled h (window b.buffer hd u))
    (hcode : code (.writing data size) b .go = some (x, k', b')) : Next N b' h k' := by
  rcases hk with ⟨hpos, hlen⟩
  obtain ⟨n, rfl⟩ := Int.eq_ofNat_of_zero_le hpos
  simp only [code, hr.lacksRoom_eq] at hcode
  by_cases hroom : (N : ℤ) - u < n
  · rw [decide_eq_true hroom] at hcode
    cases hcode
    exact ⟨hd, u, hr, ⟨hpos, hlen⟩, fun _ => hs⟩
  · rw [decide_eq_false hroom] at hcode
    cases hcode
    refine ⟨hd, u, hr, ⟨n, rfl, Nat.zero_le n, by omega, by omega, hs, ?_⟩, nofun⟩
    rw [List.take_zero, List.append_nil, Nat.add_zero]

theorem copyingIn_next {j : ℕ} (hr : b.Ring N hd u) (hk : Fits N hd u b h (.copyingIn data size j))
    (hcode : code (.copyingIn data size j) b .go = some (x, k', b')) : Next N b' h k' := by
  rcases hk with ⟨n, rfl, hj, hlen, hroom, hs, hcopied⟩
  by_cases hlt : j < n
  · have hget : data[j]? = some data[j] := List.getElem?_eq_getElem (by omega)
    have hput := hr.put_eq (i := j) (by omega) data[j]
    simp only [code, Nat.cast_lt, hlt, if_true, hget, Option.bind_some, hput] at hcode
    cases hcode
    have hin : u + j < b.buffer.length := by
      rw [hr.length]
      omega
    have hkeep := window_set hd data[j] hin (Nat.le_add_right u j)
    have hpush := window_push hd data[j] hin
    rw [hr.length] at hkeep hpush
    refine ⟨hd, u, hr.put _ _, ⟨n, rfl, hlt, hlen, hroom, by rwa [hkeep], ?_⟩, nofun⟩
    rw [hkeep]
    calc window (b.buffer.set ((hd + (u + j)) % N) data[j]) hd (u + (j + 1))
        = window b.buffer hd (u + j) ++ [data[j]] := hpush
      _ = window b.buffer hd u ++ data.take (j + 1) := by
        rw [hcopied, List.append_assoc, List.take_append_getElem]
  · obtain rfl : j = n := by omega
    obtain ⟨b₁, hadv, hr₁, hbuf⟩ := hr.advanceTail hroom
    simp only [code, Nat.cast_lt, hlt, if_false, hadv, Int.toNat_natCast] at hcode
    cases hcode
    refine ⟨hd, u + j, hr₁, ?_, nofun⟩
    rw [Fits, hbuf]
    exact hs.move (d := .write _) hcopied.symm

theorem reading_next (hr : b.Ring N hd u) (hk : Fits N hd u b h (.reading size))
    (hs : Settled h (window b.buffer hd u))
    (hcode : code (.reading size) b .go = some (x, k', b')) : Next N b' h k' := by
  rcases hk with ⟨hpos, hmax⟩
  obtain ⟨n, rfl⟩ := Int.eq_ofNat_of_zero_le hpos
  simp only [code, hr.lacksBytes_eq hmax] at hcode
  by_cases hfew : u < n
  · rw [decide_eq_true hfew] at hcode
    cases hcode
    exact ⟨hd, u, hr, ⟨hpos, hmax⟩, fun _ => hs⟩
  · rw [decide_eq_false hfew] at hcode
    cases hcode
    exact ⟨hd, u, hr, ⟨n, rfl, Nat.zero_le n, by omega, hs, rfl⟩, nofun⟩

theorem copyingOut_next (hr : b.Ring N hd u) (hk : Fits N hd u b h (.copyingOut size got))
    (hcode : code (.copyingOut size got) b .go = some (x, k', b')) : Next N b' h k' := by
  rcases hk with ⟨n, rfl, hgot, hfull, hs, hcopied⟩
  have hle := hr.used_le
  by_cases hlt : got.length < n
  · have hpos : (hd + got.length) % N < b.buffer.length := by
      rw [hr.length]
      exact Nat.mod_lt _ (by omega)
    have hget := hr.get_eq (i := got.length) (by omega)
    rw [List.getElem?_eq_getElem hpos] at hget
    simp only [code, Nat.cast_lt, hlt, if_true, hget] at hcode
    cases hcode
    refine ⟨hd, u, hr, ⟨n, rfl, ?_, hfull, hs, ?_⟩, nofun⟩
    · rw [List.length_append, List.length_singleton]
      omega
    · have hlast : b.buffer[(hd + got.length) % b.buffer.length]? =
          some b.buffer[(hd + got.length) % N] := by
        rw [hr.length, List.getElem?_eq_getElem hpos]
      rw [List.length_append, List.length_singleton,
        window_succ (by rw [hr.length]; omega) hlast, hcopied]
  · obtain rfl : got.length = n := by omega
    obtain ⟨b₁, hadv, hr₁, hbuf⟩ := hr.advanceHead hfull
    simp only [code, Nat.cast_lt, hlt, if_false, hadv] at hcode
    cases hcode
    refine ⟨_, _, hr₁, ?_, nofun⟩
    have hsplit : window b.buffer hd u =
        got ++ window b.buffer ((hd + got.length) % N) (u - got.length) := by
      have hadd := window_add (l := b.buffer) (m := got.length) (n := u - got.length) hd
        (by rw [hr.length]; omega)
      rwa [Nat.add_sub_cancel' hfull, hcopied, ← window_mod _ (hd + _), hr.length] at hadd
    rw [Fits, hbuf]
    apply hs.move (d := .read got)
    rw [hsplit]
    exact List.append_nil _

/-- One step of the code with the lock. -/
theorem inside_next (hr : b.Ring N hd u) (hk : Fits N hd u b h k) (hin : k.inside = true)
    (hs : k.held = false → Settled h (window b.buffer hd u))
    (hcode : code k b i = some (x, k', b')) : Next N b' (h ++ k.completed i) k' := by
  cases k with
  | outside | assertFailed => cases hin
  | crashed => exact hk.elim
  | writing data size =>
    cases i with
    | write | read => cases hcode
    | go => simpa [Loc.completed] using writing_next hr hk (hs rfl) hcode
  | copyingIn data size j =>
    cases i with
    | write | read => cases hcode
    | go => simpa [Loc.completed] using copyingIn_next hr hk hcode
  | reading size =>
    cases i with
    | write | read => cases hcode
    | go => simpa [Loc.completed] using reading_next hr hk (hs rfl) hcode
  | copyingOut size got =>
    cases i with
    | write | read => cases hcode
    | go => simpa [Loc.completed] using copyingOut_next hr hk hcode
  | signalled d =>
    cases i with
    | write | read => cases hcode
    | go =>
      cases hcode
      exact ⟨hd, u, hr, trivial, fun _ => hk⟩

/-- One step of the code without the lock. -/
theorem outside_next (hr : b.Ring N hd u) (hok : i.Ok N) (hk : Fits N hd u b h k)
    (hin : k.inside = false) (hcode : code k b i = some (x, k', b')) :
    b' = b ∧ k.held = false ∧ k'.held = false ∧ k.completed i = [] ∧ Fits N hd u b h k' := by
  cases k with
  | outside =>
    cases i with
    | write data size =>
      rw [code, if_pos (by rw [hr.maxSize]; exact hok.2.1)] at hcode
      cases hcode
      exact ⟨rfl, rfl, rfl, rfl, hok.1, hok.2.2⟩
    | read =>
      cases hcode
      exact ⟨rfl, rfl, rfl, rfl, hok⟩
    | go => cases hcode
  | assertFailed => exact hk.elim
  | writing | copyingIn | reading | copyingOut | signalled | crashed => cases hin

/-! ### Every run -/

structure FifoInv (N hd u : ℕ) (b : BoundedBuffer) (loc : Tid → Loc) (h : List Done) : Prop where
  ring : b.Ring N hd u
  fits : ∀ t, Fits N hd u b h (loc t)
  idle : (∀ t, (loc t).held = false) → Settled h (window b.buffer hd u)

variable {loc : Tid → Loc} {t : Tid}

theorem critical : Critical code (Input.Ok N) Loc.inside Loc.held Loc.completed
    (fun (g : ℕ × ℕ) b => b.Ring N g.1 g.2) (fun g b h k => Fits N g.1 g.2 b h k)
    (fun g b h => Settled h (window b.buffer g.1 g.2)) where
  locked := lockedAt
  stable _ _ _ _ _ _ _ hk hheld := hk.of_not_held hheld
  inside_step _ _ _ _ _ _ _ _ _ hr hk hin hs hcode := by
    obtain ⟨hd, u, hnext⟩ := inside_next hr hk hin hs hcode
    exact ⟨(hd, u), hnext⟩
  outside_step _ _ _ _ _ _ _ _ hok hr hk hin hcode := by
    obtain ⟨rfl, -, -, hnone, hk'⟩ := outside_next hr hok hk hin hcode
    exact ⟨rfl, hnone, hk'⟩

variable [Fintype Tid] {s : State Tid Cond Loc BoundedBuffer}

theorem fifoInv (hmin : 1 ≤ N) (hmax : N ≤ 2 ^ 30)
    {p : State Tid Cond Loc BoundedBuffer × List Done}
    (hr : ((machine N).observe completed).Reach (fun _ e => e.input.Ok N) p) :
    ∃ hd u, FifoInv N hd u p.1.data p.1.locs p.2 := by
  have hstart (b : BoundedBuffer) (hb : New N b) :
      ∃ g, Known Loc.held (fun (g : ℕ × ℕ) b => b.Ring N g.1 g.2)
        (fun g b h k => Fits N g.1 g.2 b h k)
        (fun g b h => Settled h (window b.buffer g.1 g.2)) g b
        (fun _ : Tid => .outside none) [] := by
    rcases hb with ⟨garbage, hlen, rfl⟩
    refine ⟨(0, 0), ⟨rfl, rfl, by simp [new], rfl, hlen, hmin, Nat.zero_le N, ?_⟩,
      fun _ => trivial, fun _ => rfl⟩
    unfold intMax
    omega
  rcases known critical rfl hstart (fun _ _ hok => hok) hr with ⟨⟨hd, u⟩, hring, hfits, hidle⟩
  exact ⟨hd, u, hring, hfits, hidle⟩

/-- In every reachable state in which no thread owns the lock, the bytes of the completed
calls of `Write` are those that the completed calls of `Read` returned and then the
`usedSize` bytes from `head` onward. Once the semaphore of the lock is free, these calls
have all returned. No thread fails the assertion or uses a position outside the buffer. -/
theorem bounded_buffer_byte_fifo {maxSize : ℕ} (hmin : 1 ≤ maxSize) (hmax : maxSize ≤ 2 ^ 30)
    (hr : ((machine maxSize).observe completed).Reach (fun _ e => e.input.Ok maxSize) (s, h))
    (hfree : ∀ t, s.owns t = false) :
    0 ≤ s.data.usedSize ∧ s.data.usedSize ≤ maxSize ∧
    s.data.tail = (s.data.head + s.data.usedSize) % maxSize ∧
    s.data.stored.length = s.data.usedSize ∧
    h.flatMap Done.written = h.flatMap Done.returned ++ s.data.stored ∧
    (s.lock.sema.value = 1 → ∀ t a, (s.thread t).pc ≠ .releaseV a) ∧
    ∀ t, s.locs t ≠ .assertFailed ∧ s.locs t ≠ .crashed := by
  obtain ⟨hd, u, hi⟩ := fifoInv hmin hmax hr
  have hring := hi.ring
  have hnone (t : Tid) : (s.locs t).held = false := by
    apply Bool.eq_false_iff.mpr
    intro hheld
    have hown := held_owns lockedAt rfl hr.forget t hheld
    rw [hfree t] at hown
    cases hown
  have hlen : (window s.data.buffer hd u).length = u :=
    length_window (by rw [hring.length]; exact hring.used_le)
  refine ⟨?_, ?_, ?_, ?_, ?_, fun hv => ?_, fun t => ⟨fun hat => ?_, fun hat => ?_⟩⟩
  · rw [hring.usedSize]
    exact Int.natCast_nonneg u
  · rw [hring.usedSize]
    exact Int.ofNat_le.mpr hring.used_le
  · rw [hring.tail, hring.head, hring.usedSize, Int.natCast_mod, Nat.cast_add]
  · rw [hring.stored_eq, hring.usedSize, hlen]
  · rw [hring.stored_eq]
    exact (hi.idle hnone).symm
  · exact nobody_leaves lockedAt.disciplined rfl hr.forget hv
  · have hfits := hi.fits t
    rwa [hat] at hfits
  · have hfits := hi.fits t
    rwa [hat] at hfits

/-- Thread 1 waits for two bytes; thread 0 writes them and, when they are read, two more
around the end of the ring. -/
def writeReadWrite : List (Event (Fin 2) Input) :=
  ⟨t1, .read 2⟩ :: List.replicate 5 ⟨t1, .go⟩ ++
    ⟨t0, .write [1, 2] 2⟩ :: List.replicate 10 ⟨t0, .go⟩ ++ List.replicate 12 ⟨t1, .go⟩ ++
    ⟨t0, .write [3, 4] 2⟩ :: List.replicate 10 ⟨t0, .go⟩

theorem bounded_buffer_byte_fifo_around :
    ∃ p, ((machine 3).observe completed).run
        (startState none (new 3 [0, 0, 0]) (.outside none), []) writeReadWrite = some p ∧
      p.2 = [.write [1, 2], .read [1, 2], .write [3, 4]] ∧ p.1.data.head = 2 ∧
      p.1.data.tail = 1 ∧ p.2.flatMap Done.written = [1, 2] ++ p.1.data.stored := by
  have h0 : ((machine 3).observe completed).init
      ((startState none (new 3 [0, 0, 0]) (.outside none), []) :
        State (Fin 2) Cond Loc BoundedBuffer × List Done) :=
    ⟨start_startState ⟨[0, 0, 0], rfl, rfl⟩, rfl⟩
  have hr : ((machine 3).observe completed).Reach (fun _ e => e.input.Ok 3) _ :=
    Machine.Reach.run (.init h0) (show Machine.Meets _ _ _ writeReadWrite by decide) rfl
  refine ⟨_, rfl, rfl, rfl, rfl, ?_⟩
  exact (bounded_buffer_byte_fifo (by decide) (by decide) hr (by decide)).2.2.2.2.1

end Coursework.Nachos.BoundedBuffer
