import Coursework.Nachos.FileSystem.Isolation
import Coursework.Nachos.FileSystem.Transfer

/-!
# Copying and printing, after `fstest.cc`

`Copy` makes a file of the length of a UNIX file and writes it in pieces of ten bytes, and
`Print` reads it in such pieces. What was copied is printed, and the other files are as they
were.
-/
namespace Coursework.Nachos
open Disk FileHeader

namespace OpenFile

/-- `Read`, from the position of the last `Seek`, `Read` or `Write` onward. -/
def read (f : OpenFile) (d : Disk) (buf into : Mem) (numBytes : ℤ) :
    Option (OpenFile × Mem × ℕ) := do
  let (into, result) ← f.readAt d buf into numBytes f.seekPosition
  some ({ f with seekPosition := f.seekPosition + result }, into, result)

end OpenFile

namespace FileSystem

def transferSize : ℕ := 10

/-- What is in the memory of the objects and buffers of `Copy` and `Print`; `garbage` and `buf` are
for the pieces one after the other. -/
structure TransferJunk where
  create : Junk
  openFile : Junk
  buffer : Mem
  garbage : ℕ → Mem
  buf : ℕ → Mem

/-- `fread` of the bytes of a file. -/
def fread (buffer : Mem) (bytes : List UInt8) : Mem :=
  buffer.copy 0 bytes.length fun j => bytes.getD j 0

/-- The loop of `Copy`, with `rest` left of the UNIX file and `n` pieces written. -/
def copyLoop (junk : TransferJunk) (f : OpenFile) (d : Disk) (buffer : Mem) (rest : List UInt8)
    (n : ℕ) : Option Disk :=
  let amountRead := (rest.take transferSize).length
  if _h : 0 < amountRead then do
    let buffer := fread buffer (rest.take transferSize)
    let (f, d, _) ← f.write d (junk.garbage n) (junk.buf n) buffer amountRead
    copyLoop junk f d buffer (rest.drop transferSize) (n + 1)
  else some d
termination_by rest.length
decreasing_by
  have hlen : 0 < (rest.take transferSize).length := _h
  rw [List.length_take, transferSize] at hlen
  rw [List.length_drop, transferSize]
  omega

/-- `Copy` of a UNIX file that can be opened. -/
def copy (fs : FileSystem) (junk : TransferJunk) (d : Disk) (content : List UInt8)
    (name : Mem) : Option Disk := do
  let fileLength := content.length
  let (created, d) ← fs.create junk.create d name fileLength
  if ¬ created then some d
  else
    let openFile ← fs.openFile junk.openFile d name
    -- `ASSERT(openFile != NULL)`
    let f ← openFile
    copyLoop junk f d junk.buffer content 0

theorem read_result {f f' : OpenFile} {d : Disk} {buf into into' : Mem} {numBytes : ℤ} {n : ℕ}
    (h : f.read d buf into numBytes = some (f', into', n)) :
    f' = { f with seekPosition := f.seekPosition + n } ∧
      (n = 0 ∨ 0 ≤ f.seekPosition ∧ f.seekPosition + n ≤ f.hdr.numBytes) := by
  obtain ⟨⟨into₁, k⟩, hread, h⟩ := Option.bind_eq_some_iff.mp h
  cases h
  refine ⟨rfl, ?_⟩
  obtain ⟨k', hclip, hread⟩ := Option.bind_eq_some_iff.mp hread
  have hcases := OpenFile.clip_cases hclip
  split_ifs at hread with hk
  · cases hread
    exact .inl rfl
  · obtain ⟨buf', -, hread⟩ := Option.bind_eq_some_iff.mp hread
    cases hread
    exact .inr ((hcases.resolve_left hk).2.imp_right And.right)

/-- The loop of `Print`, with `n` pieces read: what it prints. -/
def printLoop (junk : TransferJunk) (f : OpenFile) (d : Disk) (buffer : Mem) (n : ℕ) :
    Option (List UInt8) :=
  match _h : f.read d (junk.buf n) buffer transferSize with
  | none => none
  | some (f', buffer, amountRead) =>
    if _ha : 0 < amountRead then
      (printLoop junk f' d buffer (n + 1)).map (buffer.bytes amountRead ++ ·)
    else some []
termination_by (f.hdr.numBytes - f.seekPosition).toNat
decreasing_by
  obtain ⟨rfl, hresult⟩ := read_result _h
  change (f.hdr.numBytes - (f.seekPosition + amountRead)).toNat < _
  omega

/-- `Print`: the output, or none where the file cannot be opened. -/
def print (fs : FileSystem) (junk : TransferJunk) (d : Disk) (name : Mem) :
    Option (Option (List UInt8)) := do
  let openFile ← fs.openFile junk.openFile d name
  match openFile with
  | none => some none
  | some f => (printLoop junk f d junk.buffer 0).map some

variable {fs : FileSystem} {d d' : Disk} {name : Mem} {i n p : ℕ} {h : FileHeader}
  {junk : TransferJunk} {content rest : List UInt8}

/-! ### The loops -/

theorem write_piece {f : OpenFile} {k : ℕ} (src garbage buf : Mem) (hv : f.hdr.Valid)
    (hnodup : f.hdr.sectors.Nodup) (hseek : f.seekPosition = p) (hk : 0 < k)
    (hle : (p + k : ℤ) ≤ f.hdr.numBytes) :
    ∃ d', f.write d garbage buf src k = some (⟨f.hdr, (p + k : ℕ)⟩, d', k) ∧
      (∀ x, x ∉ f.hdr.sectors → d' x = d x) ∧
      ∀ j : ℕ, j < f.hdr.numBytes →
        OpenFile.content d' f.hdr j = (OpenFile.content d f.hdr).copy p k src j := by
  have hmax := hv.numBytes_le
  have hclip : f.clip k p = some k := by
    rw [OpenFile.clip_eq (by omega) (by omega) (by omega) (by unfold intMax; omega)]
    congr 1
    omega
  obtain ⟨d', hd, hframe, hcontent⟩ := OpenFile.writeAt_eq (d := d) garbage buf src hv hnodup hclip
  refine ⟨d', ?_, fun x hx => hframe x fun ht => hx (OpenFile.touched_subset hv ht), hcontent⟩
  rw [OpenFile.write, hseek, hd]
  rfl

theorem fread_of_lt {buffer : Mem} {bytes : List UInt8} {j : ℕ} (hj : j < bytes.length) :
    fread buffer bytes j = bytes.getD j 0 := Mem.copy_of_mem (by omega) (by omega)

/-- The loop of `Copy` puts what is left of the UNIX file after what it has written. -/
theorem copyLoop_eq (junk : TransferJunk) {f : OpenFile} (buffer : Mem) (n : ℕ) (hv : f.hdr.Valid)
    (hnodup : f.hdr.sectors.Nodup) (hseek : f.seekPosition = p)
    (hlen : (p + rest.length : ℤ) = f.hdr.numBytes) :
    ∃ d', copyLoop junk f d buffer rest n = some d' ∧ (∀ x, x ∉ f.hdr.sectors → d' x = d x) ∧
      ∀ j : ℕ, j < f.hdr.numBytes → OpenFile.content d' f.hdr j =
        if j < p then OpenFile.content d f.hdr j else rest.getD (j - p) 0 := by
  induction hl : rest.length using Nat.strong_induction_on generalizing rest f d buffer n p with
  | _ l ih =>
  have htake : (rest.take transferSize).length = min 10 l := by
    rw [List.length_take, hl, transferSize]
  rw [copyLoop]
  simp only [htake]
  by_cases hl0 : l = 0
  · rw [dif_neg (by omega)]
    exact ⟨d, rfl, fun _ _ => rfl, fun j hj => (if_pos (by omega)).symm⟩
  · rw [dif_pos (by omega)]
    have hdrop : (rest.drop transferSize).length = l - 10 := by
      rw [List.length_drop, hl, transferSize]
    obtain ⟨d₁, hd₁, hframe₁, hcontent₁⟩ := write_piece (d := d) (k := min 10 l)
      (fread buffer (rest.take transferSize)) (junk.garbage n) (junk.buf n) hv hnodup hseek
      (by omega) (by omega)
    have hlen' : ((p + min 10 l : ℕ) + (rest.drop transferSize).length : ℤ) = f.hdr.numBytes := by
      omega
    obtain ⟨d', hd', hframe', hcontent'⟩ := ih (l - 10) (by omega) (d := d₁)
      (f := ⟨f.hdr, (p + min 10 l : ℕ)⟩) (fread buffer (rest.take transferSize)) (n + 1) hv hnodup
      rfl hlen' hdrop
    refine ⟨d', ?_, fun x hx => (hframe' x hx).trans (hframe₁ x hx), fun j hj => ?_⟩
    · rw [hd₁]
      exact hd'
    · rw [hcontent' j hj]
      by_cases hdone : j < p + min 10 l
      · rw [if_pos hdone, hcontent₁ j hj]
        by_cases hold : j < p
        · rw [if_pos hold, Mem.copy_of_not_mem (.inl hold)]
        · rw [if_neg hold, Mem.copy_of_mem (by omega) hdone, fread_of_lt (by omega),
            List.getD_eq_getElem?_getD, List.getD_eq_getElem?_getD,
            List.getElem?_take_of_lt (by rw [transferSize]; omega)]
      · rw [if_neg hdone, if_neg (by omega), List.getD_eq_getElem?_getD,
          List.getD_eq_getElem?_getD, List.getElem?_drop, transferSize]
        congr 2
        omega

theorem read_piece {f : OpenFile} (buf into : Mem) (hv : f.hdr.Valid) (hseek : f.seekPosition = p)
    (hle : (p : ℤ) ≤ f.hdr.numBytes) :
    f.read d buf into transferSize =
      some (⟨f.hdr, (p + min 10 (f.hdr.numBytes.toNat - p) : ℕ)⟩,
        into.copy 0 (min 10 (f.hdr.numBytes.toNat - p)) ((OpenFile.content d f.hdr).drop p),
        min 10 (f.hdr.numBytes.toNat - p)) := by
  have hmax := hv.numBytes_le
  have hclip : f.clip transferSize p = some (min 10 (f.hdr.numBytes.toNat - p)) := by
    rw [transferSize]
    by_cases hend : (p : ℤ) = f.hdr.numBytes
    · rw [OpenFile.clip, if_pos (.inr hend.ge)]
      congr 1
      omega
    · rw [OpenFile.clip_eq (by omega) (by omega) (by omega) (by unfold intMax; omega)]
      congr 1
      omega
  rw [OpenFile.read, hseek, OpenFile.readAt_clip hv hclip, Int.toNat_natCast]
  rfl

/-- The loop of `Print` prints the file from its position to the end. -/
theorem printLoop_eq (junk : TransferJunk) {f : OpenFile} (buffer : Mem) (n : ℕ) (hv : f.hdr.Valid)
    (hseek : f.seekPosition = p) (hle : (p : ℤ) ≤ f.hdr.numBytes) :
    printLoop junk f d buffer n =
      some (((OpenFile.content d f.hdr).drop p).bytes (f.hdr.numBytes.toNat - p)) := by
  induction hl : f.hdr.numBytes.toNat - p using Nat.strong_induction_on
    generalizing f buffer n p with
  | _ l ih =>
  have hread := read_piece (d := d) (junk.buf n) buffer hv hseek hle
  rw [hl] at hread
  rw [printLoop]
  split
  · next heq =>
    rw [hread] at heq
    cases heq
  · next heq =>
    rw [hread] at heq
    cases heq
    by_cases hl0 : l = 0
    · rw [dif_neg (by omega), hl0]
      rfl
    · rw [dif_pos (by omega), ih (l - 10) (by omega) (f := ⟨f.hdr, (p + min 10 l : ℕ)⟩) _ (n + 1) hv
        rfl (by simp only; omega) (by simp only; omega), Option.map_some,
        Mem.bytes_congr Mem.agree_copy, ← Mem.drop_drop, show l - 10 = l - min 10 l by omega,
        Mem.bytes_append, Nat.add_sub_cancel' (by omega)]

/-! ### Copying and printing -/

/-- What `Copy` leaves when it can create the file. -/
structure Copied (fs : FileSystem) (d : Disk) (content : List UInt8) (name : Mem) (d' : Disk)
    (i : ℕ) : Prop where
  mounted : Mounted fs d'
  entry_lt : i < numDirEntries
  inUse : (fs.dir d').inUse i = true
  fileName : (fs.dir d').fileName i = name.chars Directory.fileNameMaxLen
  contents : Session.contents d' ((fs.dir d').sector i) = content
  other : ∀ j < numDirEntries, (fs.dir d).inUse j = true →
    Directory.SameEntry (fs.dir d) (fs.dir d') j ∧
      Session.contents d' ((fs.dir d').sector j) = Session.contents d ((fs.dir d).sector j)

/-- The contents of a file as its handle sees them. -/
theorem contents_handle {g : FileHeader} {x : ℤ} (hs : g.Same (onDisk d x)) (hv : g.Valid) :
    (OpenFile.content d g).bytes g.numBytes.toNat = Session.contents d x := by
  rw [Session.contents, ← hs.numBytes]
  apply List.map_congr_left
  intro j hj
  have hlt := List.mem_range.mp hj
  exact (content_same hs hv (by omega)).symm

theorem copied (hm : Mounted fs d) (junk : TransferJunk) (hlen : content.length ≤ maxFileSize)
    (hcreate : ∃ d₁, fs.create junk.create d name content.length = some (true, d₁)) :
    ∃ d' i, fs.copy junk d content name = some d' ∧ Copied fs d content name d' i := by
  obtain ⟨d₀, hcreate⟩ := hcreate
  rcases hm.rooted.create_cases junk.create name (Int.natCast_nonneg content.length)
    (Int.ofNat_le.mpr hlen) with ⟨hfalse, -⟩ | ⟨d₁, i, s, h, htrue, hc⟩
  · rw [hcreate] at hfalse
    cases hfalse
  have hm₁ := hc.mounted hm
  obtain ⟨g, hopen, hsame⟩ := hc.open_new hm junk.openFile
  have hvalid := hsame.valid hc.valid
  have hnodup : g.sectors.Nodup := hsame.sectors ▸ hc.nodup.of_cons
  have hbytes : g.numBytes = content.length := hsame.numBytes.trans hc.numBytes
  have hheader : (onDisk d₁ ((fs.dir d₁).sector i)).Same h := hc.sector ▸ hc.header
  have hsectors : (onDisk d₁ ((fs.dir d₁).sector i)).sectors = g.sectors :=
    hheader.sectors.trans hsame.sectors.symm
  obtain ⟨d', hd', hframe, hcontent⟩ := copyLoop_eq (f := ⟨g, 0⟩) (d := d₁) (p := 0) junk
    junk.buffer 0 hvalid hnodup rfl (by rw [hbytes, Int.natCast_zero, zero_add])
  have hm' : Mounted fs d' := hm₁.frame_data hc.entry_lt hc.inUse (hsectors ▸ hframe)
  have hdir : SameDir (fs.dir d₁) (fs.dir d') := by
    refine (dirOn_frame hm₁.dirValid hm₁.dirBytes fun x hx => hframe x fun hmem => ?_).sameDir
    rw [← hsectors] at hmem
    exact hm₁.rooted.file_not_mem_sys hc.entry_lt hc.inUse (.tail _ hmem) (Rooted.mem_sys_dir hx)
  have hentry := hdir.entry i hc.entry_lt
  have hkept : onDisk d' ((fs.dir d').sector i) = onDisk d₁ ((fs.dir d₁).sector i) := by
    rw [hentry.sector, onDisk, onDisk, hframe]
    rw [← hsectors]
    exact hm₁.rooted.header_not_mem hc.entry_lt hc.inUse
  refine ⟨d', i, ?_, hm', hc.entry_lt, hentry.inUse.trans hc.inUse,
    hentry.fileName.trans hc.fileName, ?_, fun j hj huse => ?_⟩
  · simp only [copy, htrue, hopen, Option.bind_eq_bind, Option.bind_some, not_true_eq_false,
      if_false]
    exact hd'
  · have hhandle : g.Same (onDisk d' ((fs.dir d').sector i)) := by
      rw [hkept]
      exact hsame.trans hheader.symm
    rw [← contents_handle hhandle hvalid, hbytes, Int.toNat_natCast]
    nth_rewrite 2 [← Mem.bytes_getD content]
    apply Mem.bytes_congr
    intro j hj
    rw [hcontent j (by simp only; omega), if_neg (Nat.not_lt_zero j), Nat.sub_zero]
  · have hji : j ≠ i := by
      rintro rfl
      rw [hc.entry_free] at huse
      cases huse
    have hold := hc.other j hj hji
    have hall (x : ℤ) (hx : x ∈ (fs.dir d).sector j :: (onDisk d ((fs.dir d).sector j)).sectors) :
        d' x = d x := by
      rw [hframe x, hc.stored.frame_file hm.rooted hj huse hx]
      intro hmem
      rw [hsame.sectors] at hmem
      exact hc.clear x (.tail _ hmem) (hm.rooted.marked_file hj huse hx)
    have hsame' := hold.trans (hdir.entry j hj)
    refine ⟨hsame', ?_⟩
    rw [hsame'.sector]
    exact Session.contents_congr (hm.valid j hj huse) (hall _ List.mem_cons_self)
      fun y hy => hall y (.tail _ hy)

/-- `Print` prints the contents of the file. -/
theorem print_eq (hm : Mounted fs d) (junk : TransferJunk) (hi : i < numDirEntries)
    (huse : (fs.dir d).inUse i = true)
    (hname : (fs.dir d).fileName i = name.chars Directory.fileNameMaxLen) :
    fs.print junk d name = some (some (Session.contents d ((fs.dir d).sector i))) := by
  obtain ⟨g, hopen, hsame⟩ := hm.rooted.open_of_entry junk.openFile hi huse hname
  have hvalid := hsame.valid (hm.valid i hi huse)
  rw [print]
  apply bind_of_eq hopen
  simp only
  rw [printLoop_eq (f := ⟨g, 0⟩) (p := 0) junk junk.buffer 0 hvalid rfl hvalid.numBytes_nonneg,
    Option.map_some, ← contents_handle hsame hvalid, Nat.sub_zero, Mem.drop_zero]

/-- A file that is copied is printed as it was, and the contents of the others are the same. -/
theorem copy_then_print (hm : Mounted fs d) (junk : TransferJunk) (content : List UInt8)
    (name : Mem) (hlen : content.length ≤ maxFileSize)
    (hcreate : ∃ d₁, fs.create junk.create d name content.length = some (true, d₁)) :
    ∃ d', fs.copy junk d content name = some d' ∧
      (∀ junk', fs.print junk' d' name = some (some content)) ∧
      ∀ j < numDirEntries, (fs.dir d).inUse j = true →
        Directory.SameEntry (fs.dir d) (fs.dir d') j ∧
          Session.contents d' ((fs.dir d').sector j) =
            Session.contents d ((fs.dir d).sector j) := by
  obtain ⟨d', i, hd', hc⟩ := copied hm junk hlen hcreate
  refine ⟨d', hd', fun junk' => ?_, hc.other⟩
  rw [print_eq hc.mounted junk' hc.entry_lt hc.inUse hc.fileName, hc.contents]

/-- 300 bytes are copied to a formatted disk and printed. -/
theorem copy_then_print_formatted : ∃ fs d d', Mounted fs d ∧
    fs.copy ⟨blank, blank, fun _ => 0, fun _ _ => 0, fun _ _ => 0⟩ d (List.replicate 300 7)
      (fun _ => 97) = some d' ∧
    fs.print ⟨blank, blank, fun _ => 0, fun _ _ => 0, fun _ _ => 0⟩ d' (fun _ => 97) =
      some (some (List.replicate 300 7)) := by
  obtain ⟨fs, d, -, hf⟩ := format_cases blank fun _ _ => 0
  obtain ⟨d₁, -, -, -, hc, -⟩ := hf.create blank (fun _ => 97) (show (0 : ℤ) ≤ 300 by decide)
    (by decide)
  obtain ⟨d', hd', hprint, -⟩ := copy_then_print hf.mounted
    ⟨blank, blank, fun _ => 0, fun _ _ => 0, fun _ _ => 0⟩ (List.replicate 300 7) (fun _ => 97)
    (by rw [List.length_replicate]; decide) ⟨d₁, by rw [List.length_replicate]; exact hc⟩
  exact ⟨fs, d, d', hf.mounted, hd', hprint _⟩

end FileSystem
end Coursework.Nachos
