import Coursework.Nachos.BoundedBuffer.Fifo

/-!
# When does `Print` show what `Read` would return?

`Print` walks from `head` until it comes to `tail` and does not look at `usedSize`. The
sizes of the calls and the capacity are any here.
-/
namespace Coursework.Nachos.BoundedBuffer
open Monitor

/-- `buffer[i]` -/
def byteAt (b : BoundedBuffer) (i : ℤ) : Option UInt8 :=
  if 0 ≤ i then b.buffer[i.toNat]? else none

/-- The loop of `Print` from `i` on, for at most `rounds` tests of `i != tail`. -/
def printLoop (b : BoundedBuffer) : ℕ → ℤ → Option (List UInt8)
  | 0, _ => none
  | rounds + 1, i =>
    if i = b.tail then some []
    else do
      let byte ← b.byteAt i
      let next ← b.around i 1
      let rest ← printLoop b rounds next
      some (byte :: rest)

/-- What `Print` writes: a tab, the bytes and a newline. -/
def print (b : BoundedBuffer) (rounds : ℕ) : Option (List UInt8) := do
  let bytes ← b.printLoop rounds b.head
  some (9 :: (bytes ++ [10]))

/-- What `Read` returns to a thread that need not wait. -/
def readNow (b : BoundedBuffer) (size : ℤ) : Option (List UInt8) := do
  let lacks ← b.lacksBytes size
  if lacks then none
  else
    let bytes ← (List.range size.toNat).mapM fun i : ℕ => b.get i
    let _ ← b.advanceHead size
    some bytes

/-- `Print` comes to an end and writes the `usedSize` bytes that `Read` would return. -/
def PrintsStored (b : BoundedBuffer) : Prop :=
  ∃ rounds bytes, b.print rounds = some (9 :: (bytes ++ [10])) ∧
    b.readNow b.usedSize = some bytes ∧ (bytes.length : ℤ) = b.usedSize

/-- The buffer is not full, and the positions are ones of the buffer or coincide. -/
structure NotFull (b : BoundedBuffer) : Prop where
  maxSize_pos : 0 < b.maxSize
  used_nonneg : 0 ≤ b.usedSize
  used_lt : b.usedSize < b.maxSize
  end_le : b.head + b.usedSize ≤ intMax
  positions : b.head = b.tail ∨ 0 ≤ b.head ∧ 0 ≤ b.tail

/-- What every call keeps, whatever its size is. -/
structure Sized (N : ℕ) (b : BoundedBuffer) : Prop where
  maxSize : b.maxSize = N
  length : b.buffer.length = N
  head_lt : 0 < N → -N < b.head ∧ b.head < N
  tail_lt : 0 < N → -N < b.tail ∧ b.tail < N
  cycle : 0 < N → (N : ℤ) ∣ b.head + b.usedSize - b.tail

variable {b b' : BoundedBuffer} {N hd u n rounds : ℕ} {i p x y size : ℤ} {bytes : List UInt8}

theorem around_some (h : b.around x y = some p) :
    p = (x + y).tmod b.maxSize ∧ b.maxSize ≠ 0 ∧ -intMax - 1 ≤ x + y ∧ x + y ≤ intMax := by
  rw [around, Option.bind_eq_bind, Option.bind_eq_some_iff] at h
  obtain ⟨sum, hsum, hmod⟩ := h
  have heq := eq_of_int hsum
  subst heq
  rw [int, Option.ite_none_right_eq_some] at hsum
  rw [intMod] at hmod
  split_ifs at hmod with hzero
  obtain ⟨-, -, rfl⟩ := Option.map_eq_some_iff.mp hmod
  exact ⟨rfl, hzero, hsum.1⟩

theorem around_natCast (hN : b.maxSize = N) (hpos : 0 < N) {m : ℕ} (hm : x + y = m)
    (hmax : (m : ℤ) ≤ intMax) : b.around x y = some ((m % N : ℕ) : ℤ) := by
  have hint : int (x + y) = some (m : ℤ) := by
    rw [hm]
    exact int_eq_some (le_trans (by decide) (Int.natCast_nonneg m)) hmax
  rw [around, hint, Option.bind_eq_bind, Option.bind_some, hN, intMod_natCast hmax hpos]

/-! ### What the calls keep -/

theorem tmod_bounds (hpos : 0 < N) (x : ℤ) : -N < x.tmod N ∧ x.tmod N < N := by
  have hlt := Int.tmod_lt_of_pos x (show (0 : ℤ) < N by omega)
  have hneg := Int.tmod_lt_of_pos (-x) (show (0 : ℤ) < N by omega)
  rw [Int.neg_tmod] at hneg
  omega

theorem dvd_sub_tmod (x y : ℤ) : y ∣ x - x.tmod y :=
  ⟨x.tdiv y, by have hdiv := Int.mul_tdiv_add_tmod x y; omega⟩

theorem Sized.put (hs : b.Sized N) {byte : UInt8} (h : b.put i byte = some b') : b'.Sized N := by
  rw [BoundedBuffer.put, Option.bind_eq_bind, Option.bind_eq_some_iff] at h
  obtain ⟨p, -, h⟩ := h
  obtain ⟨-, h⟩ := Option.ite_none_right_eq_some.mp h
  cases h
  exact { hs with length := (List.length_set ..).trans hs.length }

theorem Sized.advanceTail (hs : b.Sized N) (h : b.advanceTail size = some b') : b'.Sized N := by
  rw [BoundedBuffer.advanceTail, Option.bind_eq_bind, Option.bind_eq_some_iff] at h
  obtain ⟨tail, htail, h⟩ := h
  obtain ⟨used, hused, h⟩ := Option.bind_eq_some_iff.mp h
  cases h
  obtain ⟨rfl, -⟩ := around_some htail
  rw [eq_of_int hused, hs.maxSize]
  refine ⟨rfl, hs.length, hs.head_lt, fun hpos => tmod_bounds hpos _, fun hpos => ?_⟩
  have hsum := Int.dvd_add (hs.cycle hpos) (dvd_sub_tmod (b.tail + size) N)
  have heq : b.head + b.usedSize - b.tail + (b.tail + size - (b.tail + size).tmod N) =
      b.head + (b.usedSize + size) - (b.tail + size).tmod N := by omega
  rwa [heq] at hsum

theorem Sized.advanceHead (hs : b.Sized N) (h : b.advanceHead size = some b') : b'.Sized N := by
  rw [BoundedBuffer.advanceHead, Option.bind_eq_bind, Option.bind_eq_some_iff] at h
  obtain ⟨head, hhead, h⟩ := h
  obtain ⟨used, hused, h⟩ := Option.bind_eq_some_iff.mp h
  cases h
  obtain ⟨rfl, -⟩ := around_some hhead
  rw [eq_of_int hused, hs.maxSize]
  refine ⟨rfl, hs.length, fun hpos => tmod_bounds hpos _, hs.tail_lt, fun hpos => ?_⟩
  have hsum := Int.dvd_sub (hs.cycle hpos) (dvd_sub_tmod (b.head + size) N)
  have heq : b.head + b.usedSize - b.tail - (b.head + size - (b.head + size).tmod N) =
      (b.head + size).tmod N + (b.usedSize - size) - b.tail := by omega
  rwa [heq] at hsum

theorem Sized.code (hs : b.Sized N) {k k' : Loc} {e : Input} {c : Call Cond}
    (h : code k b e = some (c, k', b')) : b'.Sized N := by
  unfold BoundedBuffer.code at h
  split at h
  case h_1 => split_ifs at h <;> cases h <;> exact hs
  case h_2 | h_7 => cases h; exact hs
  case h_3 | h_5 => split at h <;> cases h <;> exact hs
  case h_4 data size j =>
    split_ifs at h
    · split at h
      case h_1 hput =>
        cases h
        obtain ⟨byte, -, hput⟩ := Option.bind_eq_some_iff.mp hput
        exact hs.put hput
      case h_2 => cases h; exact hs
    · split at h
      case h_1 hadv => cases h; exact hs.advanceTail hadv
      case h_2 => cases h; exact hs
  case h_6 size got =>
    split_ifs at h
    · split at h <;> cases h <;> exact hs
    · split at h
      case h_1 hadv => cases h; exact hs.advanceHead hadv
      case h_2 => cases h; exact hs
  case h_8 => cases h

theorem sized {Tid : Type} [DecidableEq Tid] {s : State Tid Cond Loc BoundedBuffer}
    (hr : (machine N).Reachable s) : s.data.Sized N := by
  apply hr.invariant fun s => s.data.Sized N
  · rintro s ⟨-, -, ⟨garbage, hlen, hdata⟩, -⟩
    rw [hdata]
    exact ⟨rfl, hlen, fun hpos => ⟨by simp [new]; omega, by simp [new]; omega⟩,
      fun hpos => ⟨by simp [new]; omega, by simp [new]; omega⟩, fun _ => ⟨0, by simp [new]⟩⟩
  · intro s e s' _ hs _ hstep
    rcases State.code_or_kernel (State.steps_of_step hstep) with
      ⟨k, x, k', -, hcode, -⟩ | ⟨-, hdata, -⟩
    · exact hs.code hcode
    · rwa [hdata]

/-! ### `Print` and `Read` on such a buffer -/

theorem byteAt_mod (hs : b.Sized N) (hpos : 0 < N) (m : ℕ) :
    ∃ byte, b.byteAt ((m % N : ℕ) : ℤ) = some byte ∧ b.buffer[m % b.buffer.length]? = some byte := by
  have hlt : m % N < b.buffer.length := by
    rw [hs.length]
    exact Nat.mod_lt _ hpos
  refine ⟨b.buffer[m % N], ?_, ?_⟩
  · rw [byteAt, if_pos (Int.natCast_nonneg _), Int.toNat_natCast, List.getElem?_eq_getElem hlt]
  · simp only [hs.length]
    exact List.getElem?_eq_getElem hlt

theorem get_eq_byteAt (h : b.around b.head i = some p) : b.get i = b.byteAt p := by
  rw [get, h, Option.bind_eq_bind, Option.bind_some, byteAt]

/-- The loop of `Read` copies the bytes from `head` on. -/
theorem readLoop_eq (hs : b.Sized N) (hhead : b.head = hd) (hlt : hd < N) (hn : n ≤ N)
    (hmax : ((hd + n : ℕ) : ℤ) ≤ intMax) :
    ((List.range n).mapM fun k : ℕ => b.get k) = some (window b.buffer hd n) := by
  induction n with
  | zero => rfl
  | succ n ih =>
    obtain ⟨byte, hbyte, hget⟩ := byteAt_mod hs (Nat.zero_lt_of_lt hlt) (hd + n)
    have haround : b.around b.head n = some (((hd + n) % N : ℕ) : ℤ) :=
      around_natCast hs.maxSize (Nat.zero_lt_of_lt hlt) (by rw [hhead]; omega) (by omega)
    rw [List.range_succ, List.mapM_append, ih (by omega) (by omega), Option.bind_eq_bind,
      Option.bind_some, List.mapM_cons, List.mapM_nil, get_eq_byteAt haround, hbyte,
      window_succ (by rw [hs.length]; omega) hget]
    rfl

/-- The loop of `Print` stops at the first position that is `tail`. -/
theorem printLoop_some (hs : b.Sized N) (hn : n < N) (h : b.printLoop rounds n = some bytes) :
    b.tail = ((n + bytes.length) % N : ℕ) ∧ ∀ k < bytes.length, b.tail ≠ ((n + k) % N : ℕ) := by
  induction rounds generalizing n bytes with
  | zero => cases h
  | succ rounds ih =>
    rw [printLoop] at h
    split_ifs at h with htail
    · cases h
      refine ⟨?_, nofun⟩
      rw [List.length_nil, Nat.add_zero, Nat.mod_eq_of_lt hn, htail]
    · obtain ⟨byte, -, h⟩ := Option.bind_eq_some_iff.mp h
      obtain ⟨next, hnext, h⟩ := Option.bind_eq_some_iff.mp h
      obtain ⟨rest, hrest, h⟩ := Option.bind_eq_some_iff.mp h
      cases h
      obtain ⟨rfl, -⟩ := around_some hnext
      have hmod : ((n : ℤ) + 1).tmod b.maxSize = ((n + 1) % N : ℕ) := by
        rw [hs.maxSize, ← Nat.cast_succ, Int.ofNat_tmod]
      rw [hmod] at hrest
      obtain ⟨hend, hbefore⟩ := ih (Nat.mod_lt _ (Nat.zero_lt_of_lt hn)) hrest
      rw [Nat.mod_add_mod] at hend
      refine ⟨?_, fun k hk => ?_⟩
      · rw [hend, List.length_cons, Nat.add_assoc, Nat.add_comm 1]
      · cases k with
        | zero =>
          rw [Nat.add_zero, Nat.mod_eq_of_lt hn]
          exact fun heq => htail heq.symm
        | succ k =>
          have hk' := hbefore k (Nat.lt_of_succ_lt_succ hk)
          rwa [Nat.mod_add_mod, Nat.add_assoc, Nat.add_comm 1] at hk'

/-- When `tail` is fewer than `N` positions away, the loop of `Print` comes to it. -/
theorem printLoop_eq (hs : b.Sized N) (hmax : (N : ℤ) ≤ intMax) (hu : u < N)
    (htail : b.tail = ((hd + u) % N : ℕ)) (hn : n ≤ u) :
    b.printLoop (n + 1) ((hd + (u - n)) % N : ℕ) = some (window b.buffer (hd + (u - n)) n) := by
  induction n with
  | zero =>
    rw [printLoop, Nat.sub_zero, if_pos htail.symm]
    rfl
  | succ n ih =>
    have hpos : 0 < N := Nat.zero_lt_of_lt hu
    have hne : (((hd + (u - (n + 1))) % N : ℕ) : ℤ) ≠ b.tail := by
      rw [htail]
      intro heq
      have hinj := ring_index_inj (by omega) hu (Int.ofNat_inj.mp heq)
      omega
    obtain ⟨byte, hbyte, hget⟩ := byteAt_mod hs hpos (hd + (u - (n + 1)))
    have hlt := Nat.mod_lt (hd + (u - (n + 1))) hpos
    have hsucc : hd + (u - n) = hd + (u - (n + 1)) + 1 := by omega
    have hnext : b.around (((hd + (u - (n + 1))) % N : ℕ) : ℤ) 1 =
        some (((hd + (u - n)) % N : ℕ) : ℤ) := by
      rw [around_natCast hs.maxSize hpos (m := (hd + (u - (n + 1))) % N + 1) (by omega) (by omega),
        Nat.mod_add_mod, hsucc]
    have hcons := window_cons (l := b.buffer) (n := n) (by rw [hs.length]; omega) hget
    rw [printLoop, if_neg hne, hbyte, Option.bind_eq_bind, Option.bind_some, hnext,
      Option.bind_eq_bind, Option.bind_some, ih (by omega), hcons, hsucc]
    rfl

theorem readNow_some (h : b.readNow size = some bytes) :
    ((List.range size.toNat).mapM fun k : ℕ => b.get k) = some bytes ∧
      (b.advanceHead size).isSome := by
  rw [readNow, Option.bind_eq_bind, Option.bind_eq_some_iff] at h
  obtain ⟨lacks, -, h⟩ := h
  split_ifs at h
  obtain ⟨got, hgot, h⟩ := Option.bind_eq_some_iff.mp h
  obtain ⟨b', hadv, h⟩ := Option.bind_eq_some_iff.mp h
  cases h
  exact ⟨hgot, Option.isSome_iff_exists.mpr ⟨b', hadv⟩⟩

theorem readNow_eq (hread : ((List.range b.usedSize.toNat).mapM fun k : ℕ => b.get k) = some bytes)
    (hadv : (b.around b.head b.usedSize).isSome) : b.readNow b.usedSize = some bytes := by
  have hzero : int 0 = some 0 := rfl
  obtain ⟨head, hhead⟩ := Option.isSome_iff_exists.mp hadv
  simp only [readNow, lacksBytes, advanceHead, sub_self, hzero, hread, hhead, Option.bind_eq_bind,
    Option.bind_some, lt_self_iff_false, decide_false, Bool.false_eq_true, if_false]

theorem around_isSome (hN : b.maxSize = N) (hpos : 0 < N) (hlow : -N < x + y)
    (hhigh : x + y ≤ intMax) (hmax : (N : ℤ) ≤ intMax) : (b.around x y).isSome := by
  rcases Int.lt_or_le (x + y) 0 with hneg | hnonneg
  · have hdiv : (x + y).tdiv N = 0 := by
      rcases tdiv_cases (x + y) N with ⟨hge, -⟩ | ⟨-, hdiv⟩
      · omega
      · rw [hdiv, Int.ediv_eq_zero_of_lt (by omega) (by omega), neg_zero]
    have hint : int (x + y) = some (x + y) := int_eq_some (by omega) hhigh
    have hzero : int 0 = some 0 := rfl
    rw [around, hint, Option.bind_eq_bind, Option.bind_some, hN, intMod, if_neg (by omega), hdiv,
      hzero]
    rfl
  · obtain ⟨m, hm⟩ := Int.eq_ofNat_of_zero_le hnonneg
    rw [around_natCast hN hpos hm (by omega)]
    rfl

theorem PrintsStored.notFull (hs : b.Sized N) (hp : PrintsStored b) : b.NotFull := by
  obtain ⟨rounds, bytes, hprint, hread, hlen⟩ := hp
  obtain ⟨loop, hloop, heq⟩ := Option.bind_eq_some_iff.mp hprint
  obtain rfl : loop = bytes := by simpa using heq
  obtain ⟨hgot, hadv⟩ := readNow_some hread
  obtain ⟨b', hadv⟩ := Option.isSome_iff_exists.mp hadv
  obtain ⟨p, hp, -⟩ := Option.bind_eq_some_iff.mp hadv
  obtain ⟨-, hne, -, hend⟩ := around_some hp
  have hN := hs.maxSize
  have hpos : 0 < N := by omega
  have hhead := hs.head_lt hpos
  rcases Int.lt_or_le b.head 0 with hneg | hnonneg
  · -- the first byte would be read before the buffer
    have htail : b.head = b.tail := by
      cases rounds with
      | zero => cases hloop
      | succ rounds =>
        rw [printLoop] at hloop
        split_ifs at hloop with htail
        · exact htail
        · rw [byteAt, if_neg (by omega)] at hloop
          cases hloop
    have hnil : loop = [] := by
      cases rounds with
      | zero => cases hloop
      | succ rounds =>
        rw [printLoop, if_pos htail] at hloop
        cases hloop
        rfl
    rw [hnil, List.length_nil] at hlen
    exact ⟨by omega, by omega, by omega, hend, .inl htail⟩
  · obtain ⟨n, hn⟩ := Int.eq_ofNat_of_zero_le hnonneg
    rw [hn] at hloop
    obtain ⟨htail, hbefore⟩ := printLoop_some hs (by omega) hloop
    have hlt : loop.length < N := by
      by_contra hge
      -- a whole turn would have passed `tail`
      have hfar := hbefore (loop.length - N) (by omega)
      rw [htail] at hfar
      apply hfar
      congr 1
      have hsplit : n + loop.length = n + (loop.length - N) + N := by omega
      rw [hsplit, Nat.add_mod_right]
    exact ⟨by omega, by omega, by omega, hend, .inr ⟨hnonneg, by omega⟩⟩

theorem NotFull.printsStored (hs : b.Sized N) (hmax : (N : ℤ) ≤ intMax) (hf : b.NotFull) :
    PrintsStored b := by
  have hN := hs.maxSize
  have hpos : 0 < N := by
    have hmaxSize := hf.maxSize_pos
    omega
  have hhead := hs.head_lt hpos
  have htail := hs.tail_lt hpos
  have hlow := hf.used_nonneg
  have hhigh := hf.used_lt
  have hend := hf.end_le
  obtain ⟨u, hu⟩ := Int.eq_ofNat_of_zero_le hlow
  obtain ⟨c, hc⟩ := hs.cycle hpos
  rcases Int.lt_or_le b.head 0 with hneg | hnonneg
  · -- the positions coincide, and nothing is stored
    have heq : b.head = b.tail := hf.positions.resolve_right fun h => absurd h.1 (by omega)
    have hdvd : N ∣ u := Int.natCast_dvd_natCast.mp ⟨c, by omega⟩
    have hzero : u = 0 := Nat.eq_zero_of_dvd_of_lt hdvd (by omega)
    have hadv : (b.around b.head b.usedSize).isSome :=
      around_isSome hN (by omega) (by omega) hend (by omega)
    refine ⟨1, [], ?_, readNow_eq ?_ hadv, by simp [hu, hzero]⟩
    · rw [print, printLoop, if_pos heq]
      rfl
    · rw [hu, hzero]
      rfl
  · obtain ⟨hd, hhd⟩ := Int.eq_ofNat_of_zero_le hnonneg
    have htail' : 0 ≤ b.tail := by
      rcases hf.positions with heq | hboth
      · omega
      · exact hboth.2
    have hmod : b.tail = ((hd + u) % N : ℕ) := by
      have hsum : ((hd + u : ℕ) : ℤ) = b.tail + N * c := by omega
      rw [Int.natCast_mod, hsum, Int.add_mul_emod_self_left, Int.emod_eq_of_lt htail' htail.2]
    have hprint := printLoop_eq hs hmax (by omega) hmod (le_refl u)
    simp only [Nat.sub_self, Nat.add_zero] at hprint
    rw [Nat.mod_eq_of_lt (by omega)] at hprint
    have hadv : (b.around b.head b.usedSize).isSome :=
      around_isSome hN hpos (by omega) hend hmax
    refine ⟨u + 1, window b.buffer hd u, ?_, readNow_eq ?_ hadv, ?_⟩
    · rw [print, hhd, hprint]
      rfl
    · rw [hu, Int.toNat_natCast]
      exact readLoop_eq hs hhd (by omega) (by omega) (by omega)
    · rw [length_window (by rw [hs.length]; omega), hu]

/-- In every reachable state `Print` shows exactly what `Read` would return when the buffer is not
full and the positions are ones of the buffer. -/
theorem print_agrees_with_read_iff {Tid : Type} [DecidableEq Tid]
    {s : State Tid Cond Loc BoundedBuffer} {maxSize : ℕ} (hmax : (maxSize : ℤ) ≤ intMax)
    (hr : (machine maxSize).Reachable s) : PrintsStored s.data ↔ s.data.NotFull :=
  ⟨fun hp => hp.notFull (sized hr), fun hf => hf.printsStored (sized hr) hmax⟩

/-- Two bytes of three, the second one at the start of the ring. -/
theorem print_agrees_with_read_iff_around :
    ∃ s, (machine 3).run (startState none (new 3 [0, 0, 0]) (.outside none)) writeReadWrite = some s ∧
      s.data.stored = [3, 4] ∧ PrintsStored s.data := by
  have h0 : (machine 3).init (startState none (new 3 [0, 0, 0]) (.outside none) :
      State (Fin 2) Cond Loc BoundedBuffer) := start_startState ⟨[0, 0, 0], rfl, rfl⟩
  have hr : (machine 3).Reachable _ := Machine.Reachable.run writeReadWrite (.init h0) rfl
  refine ⟨_, rfl, by decide, (print_agrees_with_read_iff (by decide) hr).mpr ?_⟩
  exact ⟨by decide, by decide, by decide, by decide, by decide⟩

/-- One byte is written to a buffer of capacity 1. -/
def fillOne : List (Event (Fin 1) Input) :=
  ⟨0, .write [7] 1⟩ :: List.replicate 9 ⟨0, .go⟩

/-- The buffer is full, the lock is free, and `Print` shows nothing. -/
theorem full_buffer_prints_nothing :
    ¬ ∀ (maxSize : ℕ) (s : State (Fin 1) Cond Loc BoundedBuffer), (maxSize : ℤ) ≤ intMax →
      (machine maxSize).Reachable s → s.lock.sema.value = 1 → (∀ t, s.owns t = false) →
      PrintsStored s.data := by
  intro hall
  have h0 : (machine 1).init (startState none (new 1 [0]) (.outside none) :
      State (Fin 1) Cond Loc BoundedBuffer) := start_startState ⟨[0], rfl, rfl⟩
  have hr : (machine 1).Reachable _ := Machine.Reachable.run fillOne (.init h0) rfl
  have hprints := hall 1 _ (by decide) hr rfl (by decide)
  have hfull := (hprints.notFull (sized hr)).used_lt
  exact absurd hfull (by decide)

variable {Tid : Type} [DecidableEq Tid] [Fintype Tid]

/-- With sizes that are not negative and a capacity that leaves room for the sums, `Print` fails
for the full buffer only. -/
theorem printsStored_iff_not_full (hmin : 1 ≤ N) (hmax : N ≤ 2 ^ 30)
    {p : State Tid Cond Loc BoundedBuffer × List Done}
    (hr : ((machine N).observe completed).Reach (fun _ e => e.input.Ok N) p) :
    PrintsStored p.1.data ↔ p.1.data.usedSize ≠ N := by
  obtain ⟨hd, u, hi⟩ := fifoInv hmin hmax hr
  have hring := hi.ring
  have hs := sized hr.forget
  have hsmall := hring.small
  constructor
  · intro hp
    have hlt := (hp.notFull hs).used_lt
    rw [hring.maxSize] at hlt
    exact ne_of_lt hlt
  · intro hne
    have hlt := hring.head_lt
    have hle := hring.used_le
    rw [hring.usedSize] at hne
    refine NotFull.printsStored hs (by omega) ⟨?_, ?_, ?_, ?_, .inr ⟨?_, ?_⟩⟩
    · rw [hring.maxSize]
      omega
    · rw [hring.usedSize]
      exact Int.natCast_nonneg u
    · rw [hring.usedSize, hring.maxSize]
      omega
    · rw [hring.head, hring.usedSize]
      omega
    · rw [hring.head]
      exact Int.natCast_nonneg hd
    · rw [hring.tail]
      exact Int.natCast_nonneg _

end Coursework.Nachos.BoundedBuffer
