import Coursework.Nachos.FileSystem.Store.Names

/-!
# Handles as the store answers them
-/
namespace Coursework.Nachos.Session
open Disk FileHeader FileSystem

variable {s s' : Session} {st st' : Store} {i n k : ℕ} {name bytes : List UInt8} {d' : Disk}
  {h : Handle} {position numBytes : ℤ} {e : Event}

/-! ### Handles in use -/

/-- A handle of the session for a file of the store. -/
structure LiveAt (s : Session) (k : ℕ) (h : Handle) (name bytes : List UInt8) (i : ℕ) : Prop where
  handle : s.handles[k]? = some h
  opens : s.OpensAt h name i
  ok : s.HandleOk h
  header : h.openFile.hdr.Same (onDisk s.disk (s.dir.sector i))
  bytes : bytes = contents s.disk (s.dir.sector i)

theorem Shows.live (hs : Shows s st) (hl : st.Live k name bytes position) :
    ∃ h i, s.LiveAt k h name bytes i ∧ h.openFile.seekPosition = position := by
  obtain ⟨hk, hg⟩ := List.getElem?_eq_some_iff.mp hl.handle
  have hk' : k < s.handles.length := hs.handles.length_eq ▸ hk
  have hh := hs.handles.get hk' hk
  rw [List.get_eq_getElem, List.get_eq_getElem, hg] at hh
  obtain ⟨i, ho⟩ := hh.opens name rfl
  have hok := hs.inv.handles _ (List.getElem_mem hk')
  refine ⟨s.handles[k], i, ⟨List.getElem?_eq_getElem hk', ho, hok,
    hok.header i ho.entry_lt ho.inUse ho.file, ?_⟩, hh.position⟩
  have hlookup := hs.lookup_files ho.entry_lt ho.inUse ho.name
  rw [hl.file] at hlookup
  exact Option.some.inj hlookup

theorem LiveAt.present (hl : s.LiveAt k h name bytes i) : s.Present h.file :=
  ⟨i, hl.opens.entry_lt, hl.opens.inUse, hl.opens.file⟩

theorem LiveAt.length (hl : s.LiveAt k h name bytes i) :
    (bytes.length : ℤ) = h.openFile.hdr.numBytes := by
  rw [hl.bytes, contents_length, ← hl.header.numBytes]
  exact Int.toNat_of_nonneg hl.ok.valid.numBytes_nonneg

theorem LiveAt.content (hl : s.LiveAt k h name bytes i) :
    (OpenFile.content s.disk h.openFile.hdr).bytes bytes.length = bytes := by
  rw [← Int.toNat_natCast bytes.length, hl.length, contents_handle hl.header hl.ok.valid, hl.bytes]

theorem amount_le (len numBytes : ℤ) (hpos : 0 ≤ position) :
    OpenFile.amount len numBytes position = 0 ∨
      position.toNat + OpenFile.amount len numBytes position ≤ len := by
  rw [OpenFile.amount]
  split_ifs <;> omega

theorem LiveAt.readAt (hl : s.LiveAt k h name bytes i) (buf into : Mem) (hpos : 0 ≤ position)
    (hint : position + numBytes ≤ intMax) :
    ∃ into', h.openFile.readAt s.disk buf into numBytes position =
      some (into', OpenFile.amount bytes.length numBytes position) ∧
      into'.bytes (OpenFile.amount bytes.length numBytes position) =
        Store.slice bytes numBytes position := by
  have hclip := OpenFile.clip_amount (f := h.openFile) hpos hint
  rw [← hl.length] at hclip
  refine ⟨_, OpenFile.readAt_clip hl.ok.valid hclip, ?_⟩
  rw [Mem.bytes_congr Mem.agree_copy, Store.slice]
  rcases amount_le bytes.length numBytes hpos with hzero | hle
  · rw [hzero]
    rfl
  · nth_rewrite 3 [← hl.content]
    rw [Mem.bytes_drop (by omega), Mem.bytes_take (by omega)]

/-! ### Writing -/

/-- Bytes of a file are replaced through a handle for it. -/
theorem LiveAt.writeAt (hl : s.LiveAt k h name bytes i) (garbage buf src : Mem)
    (hpos : 0 ≤ position) (hint : position + numBytes ≤ intMax) :
    ∃ d' n, h.openFile.writeAt s.disk garbage buf src numBytes position = some (d', n) ∧
      n = OpenFile.amount bytes.length numBytes position ∧
      (OpenFile.content d' h.openFile.hdr).bytes bytes.length =
        Store.splice bytes (src.bytes n) position := by
  have hclip := OpenFile.clip_amount (f := h.openFile) hpos hint
  rw [← hl.length] at hclip
  obtain ⟨d', hd', -, hcontent⟩ := OpenFile.writeAt_eq (d := s.disk) garbage buf src hl.ok.valid
    hl.ok.nodup hclip
  refine ⟨d', _, hd', rfl, ?_⟩
  have hbytes : (OpenFile.content d' h.openFile.hdr).bytes bytes.length =
      ((OpenFile.content s.disk h.openFile.hdr).copy position.toNat
        (OpenFile.amount bytes.length numBytes position) src).bytes bytes.length :=
    Mem.bytes_congr fun j hj => hcontent j (by rw [← hl.length]; omega)
  rw [hbytes, Store.splice, Mem.length_bytes]
  rcases amount_le bytes.length numBytes hpos with hzero | hle
  · rw [hzero, Mem.copy_zero, hl.content, Nat.add_zero, Mem.bytes, List.range_zero, List.map_nil,
      List.append_nil, List.take_append_drop]
  · rw [Mem.bytes_copy (by omega), hl.content]

/-- What a write through a handle for an entry leaves of the session. -/
structure Wrote (s s' : Session) (name new : List UInt8) (i : ℕ) : Prop where
  inv : s'.Inv
  stays : ∀ j < numDirEntries, s.dir.inUse j = true → s.Stays s' j
  slot : s'.slot i = some (name, new)
  other : ∀ j < numDirEntries, j ≠ i → s'.slot j = s.slot j
  map : (s'.fs.map s'.disk).numClear = (s.fs.map s.disk).numClear
  unused : ∀ j < numDirEntries, s'.dir.inUse j = true → s.dir.inUse j = true

theorem LiveAt.wrote (hl : s.LiveAt k h name bytes i) (hi : s.Inv)
    (hr : e.InRange) (haim : s.aim e = some (h, numBytes, position)) (hs : s.step e = some s')
    {new : List UInt8} (hnew : (OpenFile.content s'.disk h.openFile.hdr).bytes bytes.length = new) :
    s.Wrote s' name new i := by
  have hharmless : s.Harmless e := by
    intro g _ _ hg
    rw [haim] at hg
    cases hg
    exact .inl hl.present
  have hk := kept_step hi hharmless haim hs
  have hdir := hk.sameDir hi
  have hinv := inv_step hi hr hharmless hs
  obtain ⟨-, garbage, buf, src, d', n, hs', -, rfl, -⟩ := step_write haim hs
  have hm := hi.mounted
  have hlt := hl.opens.entry_lt
  have huse := hl.opens.inUse
  have hheader (j : ℕ) (hj : j < numDirEntries) (huse : s.dir.inUse j = true) :
      onDisk d' (s.dir.sector j) = onDisk s.disk (s.dir.sector j) := by
    rw [onDisk, onDisk]
    exact congrArg ofImage (hk.header j hj huse)
  have hentry := hdir.entry i hlt
  refine ⟨hinv, fun j hj huse => ⟨hdir.entry j hj, rfl, hheader j hj huse⟩, ?_, fun j hj hji => ?_,
    ?_, fun j hj huse => (hdir.entry j hj).inUse.symm.trans huse⟩
  · have hused : Session.dir { s with disk := d', handles := hs' } |>.inUse i :=
      hentry.inUse.trans huse
    have hsame : h.openFile.hdr.Same (onDisk d' (s.dir.sector i)) := by
      rw [hheader i hlt huse]
      exact hl.header
    have hsector : (s.fs.dir d').sector i = s.dir.sector i := hentry.sector
    rw [slot_of_used hused]
    congr 2
    · exact hentry.key_eq.trans hl.opens.name
    · change contents d' ((s.fs.dir d').sector i) = new
      rw [hsector, ← contents_handle hsame hl.ok.valid, ← hl.length, Int.toNat_natCast, ← hnew]
  · refine slot_stays (hdir.entry j hj) fun huse' => ?_
    have hne : s.files (s.dir.sector j) ≠ h.file := fun hfile =>
      hji (hi.file_inj j hj i hlt huse' huse (hfile.trans hl.opens.file.symm))
    exact contents_congr (hm.valid j hj huse') (hk.header j hj huse') (hk.data j hj huse' hne)
  · exact (mapOn_frame hm.mapValid hm.mapBytes fun x hx =>
      hk.sys x (Rooted.mem_sys_map hx)).numClear

end Coursework.Nachos.Session
