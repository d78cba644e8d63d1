import Coursework.Unix.Shell

/-!
# What a line is parsed to

The words of a line pass a parser with three states. The pointers of the shell stand for the words
that this parser has put aside, and the words stay in `buf` while the rest of the line is cut.
-/
namespace Coursework.Unix.Shell
open CString

/-- The arguments and the two files. -/
structure Parse where
  args : List Word
  rf : Option Word
  wf : Option Word
  deriving DecidableEq

/-- In state 1 a word is the input file, and in state 2 the output file. -/
def Parse.next (a : Parse) (type : ℕ) (w : Word) : Parse × ℕ :=
  if type = 1 then ({ a with rf := some w }, 0)
  else if type = 2 then ({ a with wf := some w }, 0)
  else if w = inputOp then (a, 1)
  else if w = outputOp then (a, 2)
  else ({ a with args := a.args ++ [w] }, type)

def Parse.words : Parse → (type : ℕ) → List Word → Parse
  | a, _, [] => a
  | a, type, w :: ws => (a.next type w).1.words (a.next type w).2 ws

/-- The parse of a line with these words. -/
def parse (ws : List Word) : Parse := (⟨[], none, none⟩ : Parse).words 0 ws

/-! ### Pointers and words -/

/-- A word that was cut out before `save`. -/
def Kept (b : List UInt8) (save off : ℕ) (w : Word) : Prop :=
  HoldsAt b off w ∧ off + w.length ≤ save

structure Represents (s : State) (save : ℕ) (a : Parse) : Prop where
  argc : s.argc = a.args.length
  argv : ∀ k, Option.Rel (Kept s.buf save) (s.argv k) a.args[k]?
  rf : Option.Rel (Kept s.buf save) s.rf a.rf
  wf : Option.Rel (Kept s.buf save) s.wf a.wf

variable {s s' : State} {a a' : Parse} {b b' : List UInt8} {save save' type token n : ℕ} {c : UInt8}
  {w : Word}

theorem rel_mono {p : Option ℕ} {v : Option Word}
    (hkept : ∀ off w, Kept b save off w → Kept b' save' off w)
    (h : Option.Rel (Kept b save) p v) : Option.Rel (Kept b' save') p v := by
  cases h with
  | none => exact .none
  | some h => exact .some (hkept _ _ h)

/-- The rest of the line is cut at `n`. -/
theorem Kept.cut {off : ℕ} (h : Kept b save off w) (hn : save < n) (hsave : save ≤ save') :
    Kept (b.set n c) save' off w :=
  ⟨h.1.set (h.2.trans_lt hn), h.2.trans hsave⟩

theorem Represents.mono (h : Represents s save a)
    (hkept : ∀ off w, Kept s.buf save off w → Kept b' save' off w) :
    Represents { s with buf := b' } save' a where
  argc := h.argc
  argv k := rel_mono hkept (h.argv k)
  rf := rel_mono hkept h.rf
  wf := rel_mono hkept h.wf

/-- A word is put aside. -/
theorem place_represents (h : Represents s save a) (hw : Kept s.buf save token w) (type : ℕ) :
    Represents (s.place type token).1 save (a.next type w).1 ∧
      (s.place type token).2 = (a.next type w).2 ∧ (s.place type token).1.buf = s.buf := by
  have htext : s.string token = w := hw.1.text_eq
  rw [State.place, Parse.next, htext]
  split_ifs
  · exact ⟨⟨h.argc, h.argv, .some hw, h.wf⟩, rfl, rfl⟩
  · exact ⟨⟨h.argc, h.argv, h.rf, .some hw⟩, rfl, rfl⟩
  · exact ⟨h, rfl, rfl⟩
  · exact ⟨h, rfl, rfl⟩
  · refine ⟨⟨?_, fun k => ?_, h.rf, h.wf⟩, rfl, rfl⟩
    · rw [List.length_append, List.length_singleton, ← h.argc]
    · have hk := h.argv k
      change Option.Rel (Kept s.buf save) (Function.update s.argv s.argc (some token) k)
        (a.args ++ [w])[k]?
      rw [h.argc]
      rcases Nat.lt_trichotomy k a.args.length with hlt | rfl | hgt
      · rw [Function.update_of_ne hlt.ne, List.getElem?_append_left hlt]
        exact hk
      · rw [Function.update_self, List.getElem?_concat_length]
        exact .some hw
      · rw [Function.update_of_ne hgt.ne', List.getElem?_eq_none (by
          rw [List.length_append, List.length_singleton]
          exact hgt)]
        rwa [List.getElem?_eq_none hgt.le] at hk

/-! ### The loop over the tokens -/

variable {pieces : List (ℕ × Word)} {trailing rounds : ℕ}

/-- One round: a word is found and put aside. -/
theorem tokens_succ (hfound : strtok space s.buf save = some (token, b', save'))
    (hw : Kept b' save' token w) (hkept : ∀ off w, Kept s.buf save off w → Kept b' save' off w)
    (h : Represents s save a) (rounds type : ℕ) :
    ∃ s' : State, s'.buf = b' ∧ Represents s' save' (a.next type w).1 ∧
      s.tokens (rounds + 1) type save = s'.tokens rounds (a.next type w).2 save' := by
  obtain ⟨hplaced, htype, hbuf⟩ := place_represents (h.mono hkept) hw type
  refine ⟨_, hbuf, hplaced, ?_⟩
  rw [State.tokens, hfound, ← htype]

/-- The loop puts the words of the line aside, one after the other. -/
theorem tokens_represents (rounds type : ℕ) (hrounds : pieces.length < rounds)
    (hwords : ∀ w ∈ pieces.map Prod.snd, w ≠ [] ∧ space ∉ w) (hspaced : Spaced pieces)
    (hline : HoldsAt s.buf save (render space pieces trailing)) (h : Represents s save a) :
    ∃ save', Represents (s.tokens rounds type save) save'
      (a.words type (pieces.map Prod.snd)) := by
  induction rounds generalizing pieces s save a type trailing with
  | zero => omega
  | succ rounds ih =>
    cases pieces with
    | nil =>
      refine ⟨save, ?_⟩
      rw [State.tokens, strtok_none hline]
      exact h
    | cons p pieces =>
      obtain ⟨n, w⟩ := p
      obtain ⟨hne, hspace⟩ := hwords w List.mem_cons_self
      have hpos : 0 < w.length := List.length_pos_iff.mpr hne
      have htail : ∀ p ∈ pieces, p.1 ≠ 0 := hspaced
      rw [List.length_cons] at hrounds
      rw [render] at hline
      have hword := hline.drop
      rw [List.length_replicate] at hword
      rcases render_rest space trailing htail with
        ⟨rfl, hnil⟩ | ⟨pieces', trailing', hrest, hmap, hspaced'⟩
      · rw [hnil, List.append_nil] at hline hword
        obtain ⟨s', hbuf, hs', htokens⟩ := tokens_succ (strtok_last hline hne hspace)
          ⟨hword, le_rfl⟩ (fun off w hw => ⟨hw.1, hw.2.trans (by omega)⟩) h rounds type
        have hend : HoldsAt s'.buf (save + n + w.length) (render space [] 0) := by
          rw [hbuf]
          have hlast : HoldsAt s.buf (save + n) (w ++ []) := by rwa [List.append_nil]
          exact hlast.drop
        rw [htokens]
        exact ih _ (by omega) (fun w hw => absurd hw List.not_mem_nil)
          (fun p hp => absurd hp List.not_mem_nil) hend hs'
      · rw [hrest] at hline hword
        have hcut : HoldsAt (s.buf.set (save + n + w.length) 0) (save + n) w :=
          hword.cut (List.cons_ne_nil _ _)
        obtain ⟨s', hbuf, hs', htokens⟩ := tokens_succ (strtok_word hline hne hspace)
          ⟨hcut, by omega⟩ (fun off w hw => hw.cut (by omega) (by omega)) h rounds type
        have hnext : HoldsAt s'.buf (save + n + w.length + 1) (render space pieces' trailing') := by
          rw [hbuf]
          exact (hword.drop.drop (w := [space])).set_before (Nat.lt_succ_self _)
        have hlen : pieces'.length = pieces.length := by
          have hlen := congrArg List.length hmap
          rwa [List.length_map, List.length_map] at hlen
        rw [htokens, List.map_cons, Parse.words, ← hmap]
        refine ih _ (by omega) (fun w hw => ?_) hspaced' hnext hs'
        exact hwords w (List.mem_cons_of_mem _ (hmap ▸ hw))

/-! ### `read_from_buf` -/

theorem init_represents (s : State) (b : List UInt8) :
    Represents { s.init with buf := b, rf := none, wf := none } 0 ⟨[], none, none⟩ where
  argc := rfl
  argv _ := .none
  rf := .none
  wf := .none

/-- `argv[argc] = NULL` changes nothing. -/
theorem Represents.terminated (h : Represents s save a) :
    Represents { s with argv := Function.update s.argv s.argc none } save a := by
  have hnone : s.argv s.argc = none := by
    have hrel := h.argv s.argc
    rw [h.argc, List.getElem?_eq_none le_rfl, ← h.argc] at hrel
    generalize s.argv s.argc = p at hrel
    cases hrel
    rfl
  rwa [Function.update_eq_self_iff.mpr hnone.symm]

/-- The last character of the line is cut off if it is the newline. -/
theorem newline_cut {content : List UInt8} {ended : Bool} (hcontent : newline ∉ content)
    (hne : content ≠ []) (hbuf : Holds b (content ++ if ended then [newline] else [])) :
    ∃ m, strlen b = some (m + 1) ∧
      HoldsAt (if b[m]? = some newline then b.set m 0 else b) 0 content := by
  have hlength := strlen_of_holds hbuf
  obtain ⟨suffix, hsuffix⟩ := hbuf.starts
  cases ended with
  | true =>
    have hlast : b[content.length]? = some newline := by
      rw [← hsuffix]
      simp
    refine ⟨content.length, ?_, ?_⟩
    · rw [hlength, if_pos rfl, List.length_append, List.length_singleton]
    · rw [if_pos hlast]
      have hline : HoldsAt b 0 (content ++ [newline]) := hbuf
      have hcut := hline.cut (List.cons_ne_nil newline [])
      rwa [Nat.zero_add] at hcut
  | false =>
    obtain ⟨pre, x, rfl⟩ := (List.eq_nil_or_concat' content).resolve_left hne
    have hlast : b[pre.length]? = some x := by
      rw [← hsuffix]
      simp
    have hx : x ≠ newline := by
      rintro rfl
      exact hcontent (List.mem_append_right pre (List.mem_singleton_self newline))
    refine ⟨pre.length, ?_, ?_⟩
    · rw [hlength, if_neg Bool.false_ne_true, List.append_nil, List.length_append,
        List.length_singleton]
    · rw [hlast, if_neg (fun h => hx (Option.some.inj h))]
      rwa [if_neg Bool.false_ne_true, List.append_nil] at hbuf

theorem readFromBuf_represents {ended : Bool}
    (hne : pieces ≠ []) (hwords : ∀ w ∈ pieces.map Prod.snd, w ≠ [] ∧ space ∉ w ∧ newline ∉ w)
    (hspaced : Spaced pieces)
    (hbuf : Holds s.buf (render space pieces trailing ++ if ended then [newline] else []))
    (hlen : (render space pieces trailing).length < MAXLINE) :
    ∃ s' save, s.init.readFromBuf = .ok s' ∧ Represents s' save (parse (pieces.map Prod.snd)) := by
  have hword (p : ℕ × Word) (hp : p ∈ pieces) := hwords p.2 (List.mem_map_of_mem hp)
  have hpieces : pieces.length ≤ (render space pieces trailing).length :=
    length_le_render fun p hp => (hword p hp).1
  have hcontent : newline ∉ render space pieces trailing :=
    not_mem_render (by decide) fun p hp => (hword p hp).2.2
  have hpos : 0 < pieces.length := List.length_pos_iff.mpr hne
  obtain ⟨m, hlength, hline⟩ := newline_cut hcontent (List.length_pos_iff.mp (by omega)) hbuf
  generalize hb : (if s.buf[m]? = some newline then s.buf.set m 0 else s.buf) = b at hline
  obtain ⟨save, hrep⟩ := tokens_represents MAXLINE 0 (by omega)
    (fun w hw => ⟨(hwords w hw).1, (hwords w hw).2.1⟩) hspaced hline (init_represents s b)
  refine ⟨_, save, ?_, hrep.terminated⟩
  simp only [State.readFromBuf, State.init, hlength, ← hb]
  rfl

end Coursework.Unix.Shell
