import Coursework.Lib.CString

/-!
# Words of a string

`strtok` cuts a string into words where it stands: the delimiter behind a word becomes its end. A
word that was found stays where it is while the rest of the string is cut.
-/
namespace Coursework.CString

/-- `none` if the string has no end in the array. -/
def strlen (b : List UInt8) : Option ℕ := if 0 ∈ b then some (text b).length else none

/-- The word that starts at or behind `save`, and where the search goes on. -/
def strtok (delim : UInt8) (b : List UInt8) (save : ℕ) : Option (ℕ × List UInt8 × ℕ) :=
  let token := save + ((text (b.drop save)).takeWhile (· = delim)).length
  let s := text (b.drop token)
  let stop := token + (s.takeWhile (· ≠ delim)).length
  if s = [] then none
  else if delim ∈ s then some (token, b.set stop 0, stop + 1)
  else some (token, b, stop)

/-- The string at an offset. -/
def HoldsAt (b : List UInt8) (off : ℕ) (s : List UInt8) : Prop := Holds (b.drop off) s

variable {b s w rest : List UInt8} {off k n : ℕ} {c delim : UInt8}

theorem strlen_of_holds (h : Holds b s) : strlen b = some s.length := by
  have hmem : 0 ∈ b := h.starts.subset (List.mem_append_right s (List.mem_singleton_self 0))
  rw [strlen, if_pos hmem, h.text_eq]

theorem HoldsAt.drop (h : HoldsAt b off (w ++ rest)) : HoldsAt b (off + w.length) rest := by
  obtain ⟨h0, suffix, hsuffix⟩ := h
  refine ⟨fun hmem => h0 (List.mem_append_right w hmem), suffix, ?_⟩
  rw [← List.drop_drop, ← hsuffix, List.append_assoc w, List.append_assoc w, List.drop_left]

/-- A character behind the end of a string may change. -/
theorem HoldsAt.set (h : HoldsAt b off s) (hn : off + s.length < n) :
    HoldsAt (b.set n c) off s := by
  obtain ⟨h0, suffix, hsuffix⟩ := h
  refine ⟨h0, suffix.set (n - off - (s ++ [0]).length) c, ?_⟩
  have hlen : (s ++ [0]).length = s.length + 1 := List.length_append
  rw [List.drop_set, if_neg (by omega), ← hsuffix, List.set_append, if_neg (by omega)]

/-- A character before a string may change. -/
theorem HoldsAt.set_before (h : HoldsAt b off s) (hn : n < off) : HoldsAt (b.set n c) off s := by
  rw [HoldsAt, List.drop_set, if_pos hn]
  exact h

/-- The string ends where the zero is written. -/
theorem HoldsAt.cut (h : HoldsAt b off (w ++ rest)) (hrest : rest ≠ []) :
    HoldsAt (b.set (off + w.length) 0) off w := by
  obtain ⟨h0, suffix, hsuffix⟩ := h
  obtain ⟨x, rest, rfl⟩ := List.exists_cons_of_ne_nil hrest
  refine ⟨fun hmem => h0 (List.mem_append_left _ hmem), rest ++ [0] ++ suffix, ?_⟩
  rw [List.drop_set, if_neg (by omega), ← hsuffix, Nat.add_sub_cancel_left]
  simp

/-! ### Finding a word -/

theorem takeWhile_delim (hw : ∀ c ∈ w.head?, c ≠ delim) :
    (List.replicate k delim ++ w).takeWhile (· = delim) = List.replicate k delim := by
  rw [List.takeWhile_append_of_pos (by simp [List.mem_replicate])]
  cases w with
  | nil => simp
  | cons c w => simp [hw c rfl]

theorem head_ne_delim (hdelim : delim ∉ w) (hw : w ≠ []) :
    ∀ c ∈ (w ++ rest).head?, c ≠ delim := by
  obtain ⟨x, w, rfl⟩ := List.exists_cons_of_ne_nil hw
  rintro c hc rfl
  simp only [List.cons_append, List.head?_cons, Option.mem_some_iff] at hc
  exact hdelim (hc ▸ List.mem_cons_self)

theorem takeWhile_word (hdelim : delim ∉ w) : w.takeWhile (· ≠ delim) = w := by
  apply List.takeWhile_eq_self_iff.mpr
  intro c hc
  exact decide_eq_true fun heq => hdelim (heq ▸ hc)

/-- Only delimiters are left. -/
theorem strtok_none (h : HoldsAt b off (List.replicate k delim)) : strtok delim b off = none := by
  have hspaces : (List.replicate k delim ++ []).takeWhile (· = delim) = List.replicate k delim :=
    takeWhile_delim nofun
  rw [List.append_nil] at hspaces
  have hend : HoldsAt b (off + k) [] := by
    have hline : HoldsAt b off (List.replicate k delim ++ []) := by rwa [List.append_nil]
    have hdrop := hline.drop
    rwa [List.length_replicate] at hdrop
  rw [strtok]
  simp only [h.text_eq, hspaces, List.length_replicate, hend.text_eq, ↓reduceIte]

/-- The last word: nothing is behind it. -/
theorem strtok_last (h : HoldsAt b off (List.replicate k delim ++ w)) (hw : w ≠ [])
    (hdelim : delim ∉ w) : strtok delim b off = some (off + k, b, off + k + w.length) := by
  have hhead : ∀ c ∈ w.head?, c ≠ delim := by
    have hhead : ∀ c ∈ (w ++ []).head?, c ≠ delim := head_ne_delim hdelim hw
    rwa [List.append_nil] at hhead
  have hword := h.drop
  rw [List.length_replicate] at hword
  rw [strtok]
  simp only [h.text_eq, takeWhile_delim hhead, List.length_replicate, hword.text_eq, if_neg hw,
    if_neg hdelim, takeWhile_word hdelim]

theorem strtok_word (h : HoldsAt b off (List.replicate k delim ++ (w ++ delim :: rest)))
    (hw : w ≠ []) (hdelim : delim ∉ w) :
    strtok delim b off =
      some (off + k, b.set (off + k + w.length) 0, off + k + w.length + 1) := by
  have hword := h.drop
  rw [List.length_replicate] at hword
  have hne : w ++ delim :: rest ≠ [] := by simp
  have hmem : delim ∈ w ++ delim :: rest := by simp
  have htake : (w ++ delim :: rest).takeWhile (· ≠ delim) = w := by
    have hall : ∀ c ∈ w, decide (c ≠ delim) = true :=
      fun c hc => decide_eq_true fun heq => hdelim (heq ▸ hc)
    rw [List.takeWhile_append_of_pos hall]
    simp
  rw [strtok]
  simp only [h.text_eq, takeWhile_delim (head_ne_delim hdelim hw), List.length_replicate,
    hword.text_eq, if_neg hne, if_pos hmem, htake]

/-! ### Strings of words -/

/-- Each word behind so many delimiters, and delimiters at the end. -/
def render (delim : UInt8) : List (ℕ × List UInt8) → ℕ → List UInt8
  | [], trailing => List.replicate trailing delim
  | (n, w) :: pieces, trailing => List.replicate n delim ++ (w ++ render delim pieces trailing)

/-- There is a delimiter between two words at least. -/
def Spaced (pieces : List (ℕ × List UInt8)) : Prop := ∀ p ∈ pieces.tail, p.1 ≠ 0

instance (pieces : List (ℕ × List UInt8)) : Decidable (Spaced pieces) :=
  inferInstanceAs (Decidable (∀ p ∈ pieces.tail, p.1 ≠ 0))

variable {pieces : List (ℕ × List UInt8)} {trailing : ℕ}

/-- Behind a word there is nothing, or a delimiter and the other words. -/
theorem render_rest (delim : UInt8) (trailing : ℕ) (hspaced : ∀ p ∈ pieces, p.1 ≠ 0) :
    (pieces = [] ∧ render delim pieces trailing = []) ∨
      ∃ pieces' trailing', render delim pieces trailing = delim :: render delim pieces' trailing' ∧
        pieces'.map Prod.snd = pieces.map Prod.snd ∧ Spaced pieces' := by
  cases pieces with
  | nil =>
    cases trailing with
    | zero => exact .inl ⟨rfl, rfl⟩
    | succ trailing => exact .inr ⟨[], trailing, rfl, rfl, nofun⟩
  | cons p pieces =>
    obtain ⟨n, w⟩ := p
    obtain ⟨n, rfl⟩ := Nat.exists_eq_succ_of_ne_zero (hspaced (n, w) List.mem_cons_self)
    exact .inr ⟨(n, w) :: pieces, trailing, rfl, rfl,
      fun p hp => hspaced p (List.mem_cons_of_mem _ hp)⟩

theorem not_mem_render (hc : c ≠ delim) (hwords : ∀ p ∈ pieces, c ∉ p.2) :
    c ∉ render delim pieces trailing := by
  induction pieces with
  | nil => exact fun hmem => hc (List.eq_of_mem_replicate hmem)
  | cons p pieces ih =>
    rw [render, List.mem_append, List.mem_append, not_or, not_or]
    exact ⟨fun hmem => hc (List.eq_of_mem_replicate hmem), hwords p List.mem_cons_self,
      ih fun p hp => hwords p (List.mem_cons_of_mem _ hp)⟩

theorem length_le_render (hwords : ∀ p ∈ pieces, p.2 ≠ []) :
    pieces.length ≤ (render delim pieces trailing).length := by
  induction pieces with
  | nil => exact Nat.zero_le _
  | cons p pieces ih =>
    have hpos : 0 < p.2.length := List.length_pos_iff.mpr (hwords p List.mem_cons_self)
    have hle := ih fun p hp => hwords p (List.mem_cons_of_mem _ hp)
    rw [render, List.length_append, List.length_append, List.length_cons]
    omega

/-! ### The words of a string -/

def words (delim : UInt8) (s : List UInt8) : List (List UInt8) := (s.splitOn delim).filter (· ≠ [])

theorem words_nil : words delim [] = [] := rfl

theorem words_delim : words delim (delim :: s) = words delim s := by
  have hsplit := List.splitOn_append_cons_self (a := delim) [] s
  rw [List.nil_append] at hsplit
  rw [words, hsplit]
  rfl

theorem words_replicate : words delim (List.replicate n delim ++ s) = words delim s := by
  induction n with
  | zero => rfl
  | succ n ih => rw [List.replicate_succ, List.cons_append, words_delim, ih]

theorem words_append (hw : w ≠ []) (hdelim : delim ∉ w) (hrest : ∀ c ∈ rest.head?, c = delim) :
    words delim (w ++ rest) = w :: words delim rest := by
  cases rest with
  | nil =>
    rw [List.append_nil, words, List.splitOn_eq_singleton hdelim, words_nil]
    exact List.filter_cons_of_pos (decide_eq_true hw)
  | cons c rest =>
    obtain rfl : c = delim := hrest c rfl
    rw [words_delim, words, List.splitOn_append_cons_self_of_not_mem hdelim]
    exact List.filter_cons_of_pos (decide_eq_true hw)

theorem words_render (hwords : ∀ w ∈ pieces.map Prod.snd, w ≠ [] ∧ delim ∉ w)
    (hspaced : Spaced pieces) :
    words delim (render delim pieces trailing) = pieces.map Prod.snd := by
  induction pieces with
  | nil =>
    have hspaces : words delim (List.replicate trailing delim ++ []) = [] := words_replicate
    rwa [List.append_nil] at hspaces
  | cons p pieces ih =>
    obtain ⟨n, w⟩ := p
    obtain ⟨hne, hdelim⟩ := hwords w List.mem_cons_self
    have htail : ∀ p ∈ pieces, p.1 ≠ 0 := hspaced
    have hrest : ∀ c ∈ (render delim pieces trailing).head?, c = delim := by
      rcases render_rest delim trailing htail with ⟨-, hnil⟩ | ⟨pieces', trailing', hcons, -⟩
      · rw [hnil]
        exact nofun
      · rw [hcons]
        exact fun c hc => (Option.some.inj hc).symm
    rw [render, words_replicate, words_append hne hdelim hrest,
      ih (fun w hw => hwords w (List.mem_cons_of_mem _ hw))
        fun p hp => htail p (List.mem_of_mem_tail hp)]
    rfl

end Coursework.CString
