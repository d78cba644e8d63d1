import Coursework.Ros.Person

/-!
# The messages of the service `Person` in Lisp

`Person.lisp` writes the codes of a name's characters as bytes, with their number before them, where
Python writes UTF-8. Characters and their codes are as for Python.
-/
namespace Coursework.Ros.Lisp
open Wire

inductive Error where
  | typeError
  | endOfFile
  deriving DecidableEq

/-! ### The standard -/

/-- `(cl:ldb (cl:byte 8 p) n)` -/
def ldb8 (p : ℕ) (n : ℤ) : UInt8 := UInt8.ofNat (n / 2 ^ p % 256).toNat

/-- `(cl:setf (cl:ldb (cl:byte 8 p) n) b)` -/
def setLdb8 (p : ℕ) (n : ℤ) (b : UInt8) : ℤ := n + (b.toNat - n / 2 ^ p % 256) * 2 ^ p

/-- `cl:write-byte` of an integer, into a stream of bytes. -/
def writeByte (n : ℕ) (ostream : List UInt8) : List UInt8 × Except Error Unit :=
  if n < 256 then (ostream ++ [UInt8.ofNat n], .ok ()) else (ostream, .error .typeError)

/-- `cl:read-byte` -/
def readByte : List UInt8 → Except Error (UInt8 × List UInt8)
  | [] => .error .endOfFile
  | b :: istream => .ok (b, istream)

def codeChar (b : UInt8) : Fin 0x110000 :=
  ⟨b.toNat, Nat.lt_of_lt_of_le b.toNat_lt (by decide)⟩

/-! ### `Person.lisp` -/

/-- The four bytes of `__ros_str_len`. -/
def writeLength (n : ℕ) (ostream : List UInt8) : List UInt8 :=
  ostream ++ [ldb8 0 n, ldb8 8 n, ldb8 16 n, ldb8 24 n]

/-- The `cl:map` over the characters. -/
def writeChars : Text → List UInt8 → List UInt8 × Except Error Unit
  | [], ostream => (ostream, .ok ())
  | c :: s, ostream =>
    match writeByte c.val ostream with
    | (ostream, .ok ()) => writeChars s ostream
    | (ostream, .error e) => (ostream, .error e)

def writeString (s : Text) (ostream : List UInt8) : List UInt8 × Except Error Unit :=
  writeChars s (writeLength s.length ostream)

def serializeRequest (msg : PersonRequest) (ostream : List UInt8) :
    List UInt8 × Except Error Unit :=
  match writeString msg.name ostream with
  | (ostream, .error e) => (ostream, .error e)
  | (ostream, .ok ()) => (ostream ++ [ldb8 0 msg.age] ++ [ldb8 0 msg.sex], .ok ())

def serializeResponse (msg : PersonResponse) (ostream : List UInt8) :
    List UInt8 × Except Error Unit :=
  writeString msg.result ostream

def readLength (istream : List UInt8) : Except Error (ℤ × List UInt8) := do
  let (b, istream) ← readByte istream
  let n := setLdb8 0 0 b
  let (b, istream) ← readByte istream
  let n := setLdb8 8 n b
  let (b, istream) ← readByte istream
  let n := setLdb8 16 n b
  let (b, istream) ← readByte istream
  return (setLdb8 24 n b, istream)

/-- The `cl:dotimes`, in which `name` is what is filled already. -/
def readChars : ℕ → Text → List UInt8 → Except Error (Text × List UInt8)
  | 0, name, istream => .ok (name, istream)
  | n + 1, name, istream => do
    let (b, istream) ← readByte istream
    readChars n (name ++ [codeChar b]) istream

def readString (istream : List UInt8) : Except Error (Text × List UInt8) := do
  let (n, istream) ← readLength istream
  readChars n.toNat [] istream

/-- The message is filled, and the rest of the stream is left. -/
def deserializeRequest (msg : PersonRequest) (istream : List UInt8) :
    Except Error (PersonRequest × List UInt8) := do
  let (name, istream) ← readString istream
  let (b, istream) ← readByte istream
  let age := setLdb8 0 msg.age b
  let (b, istream) ← readByte istream
  return (⟨name, age, setLdb8 0 msg.sex b⟩, istream)

def deserializeResponse (istream : List UInt8) : Except Error (PersonResponse × List UInt8) := do
  let (result, istream) ← readString istream
  return (⟨result⟩, istream)

variable {decode : List UInt8 → Text} {s : Text} {b istream ostream rest : List UInt8}

/-! ### What is read -/

theorem bind_eq_ok {α β : Type} {x : Except Error α} {f : α → Except Error β} {r : β}
    (h : (x >>= f) = .ok r) : ∃ a, x = .ok a ∧ f a = .ok r := by
  cases x with
  | error e => cases h
  | ok a => exact ⟨a, rfl, h⟩

theorem setLdb8_byte {n : ℤ} (h : 0 ≤ n ∧ n < 256) (b : UInt8) : setLdb8 0 n b = b.toNat := by
  rw [setLdb8, pow_zero, Int.ediv_one, mul_one]
  omega

theorem readLength_append {l : List UInt8} (h : l.length = 4) :
    readLength (l ++ rest) = .ok ((ofLe l : ℕ), rest) := by
  match l, h with
  | [a, b, c, d], _ =>
    have ha := a.toNat_lt
    have hb := b.toNat_lt
    have hc := c.toNat_lt
    have hd := d.toNat_lt
    have hn : setLdb8 24 (setLdb8 16 (setLdb8 8 (setLdb8 0 0 a) b) c) d =
        (ofLe [a, b, c, d] : ℕ) := by
      simp only [setLdb8, ofLe]
      omega
    rw [← hn]
    rfl

theorem readLength_eq_ok {n : ℤ} (h : readLength istream = .ok (n, rest)) :
    ∃ l : List UInt8, l.length = 4 ∧ istream = l ++ rest := by
  match istream, h with
  | a :: b :: c :: d :: l, h =>
    cases h
    exact ⟨[a, b, c, d], rfl, rfl⟩

theorem readChars_append (b : List UInt8) (name : Text) :
    readChars b.length name (b ++ rest) = .ok (name ++ b.map codeChar, rest) := by
  induction b generalizing name with
  | nil => rw [List.map_nil, List.append_nil, List.nil_append, List.length_nil, readChars]
  | cons c b ih =>
    have hstep : readChars (c :: b).length name (c :: b ++ rest) =
      readChars b.length (name ++ [codeChar c]) (b ++ rest) := rfl
    rw [hstep, ih, List.map_cons, List.append_assoc, List.singleton_append]

theorem readChars_eq_ok {n : ℕ} {name : Text} (h : readChars n name istream = .ok (s, rest)) :
    ∃ b : List UInt8, b.length = n ∧ istream = b ++ rest := by
  induction n generalizing istream name with
  | zero =>
    cases h
    exact ⟨[], rfl, rfl⟩
  | succ n ih =>
    match istream, h with
    | c :: istream, h =>
      obtain ⟨b, hn, rfl⟩ := ih (h : readChars n (name ++ [codeChar c]) istream = .ok (s, rest))
      exact ⟨c :: b, by rw [List.length_cons, hn], rfl⟩

theorem readString_counted (h : b.length < 256 ^ 4) :
    readString (counted 4 b ++ rest) = .ok (b.map codeChar, rest) := by
  have hchars := @readChars_append rest b []
  rw [counted, List.append_assoc, readString, readLength_append (length_le _ _), ofLe_le h]
  exact hchars

theorem readString_eq_ok (h : readString istream = .ok (s, rest)) :
    ∃ b : List UInt8, b.length < 256 ^ 4 ∧ istream = counted 4 b ++ rest := by
  obtain ⟨⟨n, istream'⟩, hn, hchars⟩ := bind_eq_ok h
  obtain ⟨l, hl, rfl⟩ := readLength_eq_ok hn
  obtain ⟨b, hb, rfl⟩ := readChars_eq_ok hchars
  rw [readLength_append hl] at hn
  cases hn
  rw [Int.toNat_natCast] at hb
  refine ⟨b, ?_, ?_⟩
  · rw [hb, ← hl]
    exact ofLe_lt l
  · rw [counted, hb, ← hl, le_ofLe, List.append_assoc]

theorem deserializeRequest_requestBytes (msg : PersonRequest) (h : b.length < 256 ^ 4)
    (age sex : UInt8) :
    deserializeRequest msg (requestBytes b age sex ++ rest) =
      .ok (⟨b.map codeChar, setLdb8 0 msg.age age, setLdb8 0 msg.sex sex⟩, rest) := by
  rw [requestBytes, List.append_assoc, deserializeRequest, readString_counted h]
  rfl

theorem deserializeRequest_eq_ok {msg m : PersonRequest}
    (h : deserializeRequest msg istream = .ok (m, rest)) :
    ∃ b age sex, b.length < 256 ^ 4 ∧ istream = requestBytes b age sex ++ rest := by
  obtain ⟨⟨name, istream'⟩, hname, hnumbers⟩ := bind_eq_ok h
  obtain ⟨b, hb, rfl⟩ := readString_eq_ok hname
  clear h hname
  match istream', hnumbers with
  | age :: sex :: l, hnumbers =>
    cases hnumbers
    refine ⟨b, age, sex, hb, ?_⟩
    rw [requestBytes, List.append_assoc]
    rfl

/-- Only whole responses are read. -/
theorem deserializeResponse_ok_iff : (∃ p, deserializeResponse istream = .ok p) ↔
    ∃ b rest, b.length < 256 ^ 4 ∧ istream = counted 4 b ++ rest := by
  constructor
  · rintro ⟨p, h⟩
    obtain ⟨⟨result, rest⟩, hresult, -⟩ := bind_eq_ok h
    obtain ⟨b, hb⟩ := readString_eq_ok hresult
    exact ⟨b, rest, hb⟩
  · rintro ⟨b, rest, hb, rfl⟩
    refine ⟨(⟨b.map codeChar⟩, rest), ?_⟩
    rw [deserializeResponse, readString_counted hb]
    rfl

/-! ### What is written -/

/-- The codes of characters, as bytes. -/
def codes (s : Text) : List UInt8 := s.map fun c => UInt8.ofNat c.val

@[simp] theorem length_codes (s : Text) : (codes s).length = s.length := List.length_map _

theorem toNat_ldb8 (n : ℤ) : ((ldb8 0 n).toNat : ℤ) = n % 256 := by
  rw [ldb8, pow_zero, Int.ediv_one, UInt8.toNat_ofNat']
  omega

theorem ldb8_natCast (p n : ℕ) : ldb8 p n = UInt8.ofNat (n / 2 ^ p) := by
  have hcast : (n : ℤ) / 2 ^ p % 256 = (n / 2 ^ p % 256 : ℕ) := by
    push_cast
    rfl
  apply UInt8.toNat_inj.mp
  rw [ldb8, hcast, Int.toNat_natCast, UInt8.toNat_ofNat', UInt8.toNat_ofNat']
  omega

theorem ldb8_byte (b : UInt8) : ldb8 0 b.toNat = b := by
  rw [ldb8_natCast, pow_zero, Nat.div_one, UInt8.ofNat_toNat]

theorem writeLength_eq (n : ℕ) (ostream : List UInt8) :
    writeLength n ostream = ostream ++ le n 4 := by
  have h16 : n / 2 ^ 16 = n / 256 / 256 := by omega
  have h24 : n / 2 ^ 24 = n / 256 / 256 / 256 := by omega
  rw [writeLength, ldb8_natCast, ldb8_natCast, ldb8_natCast, ldb8_natCast, h16, h24, pow_zero,
    Nat.div_one]
  rfl

theorem writeChars_ok (h : ∀ c ∈ s, c.val < 256) :
    writeChars s ostream = (ostream ++ codes s, .ok ()) := by
  induction s generalizing ostream with
  | nil => rw [writeChars, codes, List.map_nil, List.append_nil]
  | cons c s ih =>
    have hc := h c List.mem_cons_self
    have hstep : writeChars (c :: s) ostream = writeChars s (ostream ++ [UInt8.ofNat c.val]) := by
      simp only [writeChars, writeByte, if_pos hc]
    rw [hstep, ih fun d hd => h d (List.mem_cons_of_mem c hd)]
    rw [codes, codes, List.map_cons, List.append_assoc, List.singleton_append]

theorem writeChars_ok_iff : (writeChars s ostream).2 = .ok () ↔ ∀ c ∈ s, c.val < 256 := by
  constructor
  · intro h
    induction s generalizing ostream with
    | nil => exact List.forall_mem_nil _
    | cons c s ih =>
      by_cases hc : c.val < 256
      · rw [writeChars, writeByte, if_pos hc] at h
        exact List.forall_mem_cons.mpr ⟨hc, ih h⟩
      · rw [writeChars, writeByte, if_neg hc] at h
        cases h
  · intro h
    rw [writeChars_ok h]

theorem serializeRequest_of_latin {m : PersonRequest} (h : ∀ c ∈ m.name, c.val < 256) :
    serializeRequest m ostream =
      (ostream ++ requestBytes (codes m.name) (ldb8 0 m.age) (ldb8 0 m.sex), .ok ()) := by
  rw [serializeRequest, writeString, writeChars_ok h, writeLength_eq]
  simp only [requestBytes, counted, length_codes, List.append_assoc, List.singleton_append]

theorem serializeRequest_ok_iff {m : PersonRequest} :
    (serializeRequest m ostream).2 = .ok () ↔ ∀ c ∈ m.name, c.val < 256 := by
  constructor
  · intro h
    apply (@writeChars_ok_iff _ (writeLength m.name.length ostream)).mp
    rw [serializeRequest, writeString] at h
    cases hw : writeChars m.name (writeLength m.name.length ostream) with
    | mk ostream' result =>
      cases result with
      | ok u => rfl
      | error e =>
        rw [hw] at h
        cases h
  · intro h
    rw [serializeRequest_of_latin h]

/-! ### Strings in both -/

theorem map_codeChar_codes (h : ∀ c ∈ s, c.val < 256) : (codes s).map codeChar = s := by
  induction s with
  | nil => rfl
  | cons c s ih =>
    obtain ⟨hc, hs⟩ := List.forall_mem_cons.mp h
    have hval : (UInt8.ofNat c.val).toNat = c.val := by
      rw [UInt8.toNat_ofNat', Nat.mod_eq_of_lt hc]
    have hcode : codeChar (UInt8.ofNat c.val) = c := Fin.ext hval
    rw [codes, List.map_cons, List.map_cons, hcode]
    exact congrArg (c :: ·) (ih hs)

/-- Characters below 128 are written as their codes. -/
theorem encode_ascii (h : ∀ c ∈ s, c.val < 128) : encode s = some (codes s) := by
  induction s with
  | nil => rfl
  | cons c s ih =>
    obtain ⟨hc, hs⟩ := List.forall_mem_cons.mp h
    have hvalid : c.val.isValidChar := Or.inl (Nat.lt_trans hc (by decide))
    obtain ⟨l, hl⟩ : ∃ l, point? c = some l := ⟨_, by rw [point?, dif_pos hvalid]⟩
    have hval := point?_eq_some.mp hl
    have hsize : l.utf8Size = 1 := by
      apply Char.utf8Size_eq_one_iff.mpr
      apply UInt32.le_iff_toNat_le.mpr
      rw [hval]
      exact Nat.le_of_lt_succ hc
    have hbyte : l.val.toUInt8 = UInt8.ofNat c.val := by
      apply UInt8.toNat_inj.mp
      rw [UInt32.toNat_toUInt8, UInt8.toNat_ofNat', hval]
    refine encode_cons.mpr ⟨l, codes s, hl, ih hs, ?_⟩
    rw [String.utf8EncodeChar_eq_singleton hsize, hbyte]
    rfl

theorem length_le_of_encode (h : encode s = some b) :
    s.length ≤ b.length ∧ (s.length = b.length → ∀ c ∈ s, c.val < 128) := by
  induction s generalizing b with
  | nil => exact ⟨Nat.zero_le _, fun _ => List.forall_mem_nil _⟩
  | cons c s ih =>
    obtain ⟨l, b', hl, hb', rfl⟩ := encode_cons.mp h
    obtain ⟨hle, heq⟩ := ih hb'
    have hsize := l.utf8Size_pos
    rw [List.length_append, String.length_utf8EncodeChar, List.length_cons]
    refine ⟨by omega, fun hlength => List.forall_mem_cons.mpr ⟨?_, heq (by omega)⟩⟩
    have hone : l.val ≤ 127 := Char.utf8Size_eq_one_iff.mp (by omega)
    have hval : l.val.toNat ≤ 127 := hone
    rw [← point?_eq_some.mp hl]
    omega

theorem map_codeChar_eq_iff (h : encode s = some b) :
    b.map codeChar = s ↔ ∀ c ∈ s, c.val < 128 := by
  constructor
  · intro hb
    have hlength := congrArg List.length hb
    rw [List.length_map] at hlength
    exact (length_le_of_encode h).2 hlength.symm
  · intro hascii
    rw [encode_ascii hascii] at h
    cases h
    exact map_codeChar_codes fun c hc => Nat.lt_trans (hascii c hc) (by decide)

/-- Lisp writes what Python writes where the name is ASCII. -/
theorem serializeRequest_eq_iff {m : PersonRequest} {age sex : UInt8}
    (h : m.Writes b age sex) :
    serializeRequest m ostream = (ostream ++ requestBytes b age sex, .ok ()) ↔
      ∀ c ∈ m.name, c.val < 128 := by
  obtain ⟨⟨hname, hb⟩, hage, hsex⟩ := h
  constructor
  · intro hwrites
    have hlatin : ∀ c ∈ m.name, c.val < 256 := by
      apply (@serializeRequest_ok_iff ostream m).mp
      rw [hwrites]
    rw [serializeRequest_of_latin hlatin] at hwrites
    have hlength := congrArg List.length (List.append_cancel_left (Prod.mk.inj hwrites).1)
    rw [length_requestBytes, length_requestBytes, length_codes] at hlength
    exact (length_le_of_encode hname).2 (Nat.add_right_cancel hlength)
  · intro hascii
    have hcodes := encode_ascii hascii
    rw [hname] at hcodes
    rw [serializeRequest_of_latin fun c hc => Nat.lt_trans (hascii c hc) (by decide),
      ← Option.some.inj hcodes, hage, hsex, ldb8_byte, ldb8_byte]

/-- Python and Lisp accept the same requests. What one of them writes the other reads, the numbers
as bytes, and the name where it is ASCII; Lisp reads what it writes itself up to code 255. -/
theorem request_interop (hdecode : ∀ s b, encode s = some b → decode b = s)
    (msg m : PersonRequest) (hage : 0 ≤ msg.age ∧ msg.age < 256)
    (hsex : 0 ≤ msg.sex ∧ msg.sex < 256) (ostream : List UInt8) :
    (∀ istream, (∃ r, deserializeRequest msg istream = .ok r) ↔
        ∃ r, PersonRequest.deserialize decode istream = .ok r) ∧
      (∀ b age sex, m.Writes b age sex →
        (∃ name, (∀ rest, deserializeRequest msg (requestBytes b age sex ++ rest) =
            .ok (⟨name, m.age, m.sex⟩, rest)) ∧
          (name = m.name ↔ ∀ c ∈ m.name, c.val < 128)) ∧
        (serializeRequest m ostream = (ostream ++ requestBytes b age sex, .ok ()) ↔
          ∀ c ∈ m.name, c.val < 128)) ∧
      ((serializeRequest m ostream).2 = .ok () ↔ ∀ c ∈ m.name, c.val < 256) ∧
      ((∀ c ∈ m.name, c.val < 256) → m.name.length < 256 ^ 4 →
        ∃ w name, serializeRequest m ostream = (ostream ++ w, .ok ()) ∧
          ∀ rest, deserializeRequest msg (w ++ rest) =
              .ok (⟨m.name, m.age % 256, m.sex % 256⟩, rest) ∧
            PersonRequest.deserialize decode (w ++ rest) = .ok ⟨name, m.age % 256, m.sex % 256⟩ ∧
            ((∀ c ∈ m.name, c.val < 128) → name = m.name)) := by
  refine ⟨fun istream => ⟨?_, ?_⟩, ?_, serializeRequest_ok_iff, ?_⟩
  · rintro ⟨⟨r, rest⟩, hr⟩
    obtain ⟨b, age, sex, hb, rfl⟩ := deserializeRequest_eq_ok hr
    exact ⟨_, PersonRequest.deserialize_requestBytes hb age sex⟩
  · rintro ⟨r, hr⟩
    obtain ⟨b, age, sex, rest, hb, rfl, -⟩ := PersonRequest.deserialize_eq_ok hr
    exact ⟨_, deserializeRequest_requestBytes msg hb age sex⟩
  · intro b age sex hwrites
    obtain ⟨⟨hname, hb⟩, hage', hsex'⟩ := id hwrites
    refine ⟨⟨b.map codeChar, fun rest => ?_, map_codeChar_eq_iff hname⟩,
      serializeRequest_eq_iff hwrites⟩
    rw [deserializeRequest_requestBytes msg hb, setLdb8_byte hage, setLdb8_byte hsex, hage', hsex']
  · intro hlatin hlength
    have hb : (codes m.name).length < 256 ^ 4 := by rwa [length_codes]
    refine ⟨_, decode (codes m.name), serializeRequest_of_latin hlatin, fun rest => ⟨?_, ?_, ?_⟩⟩
    · rw [deserializeRequest_requestBytes msg hb, map_codeChar_codes hlatin, setLdb8_byte hage,
        setLdb8_byte hsex, toNat_ldb8, toNat_ldb8]
    · rw [PersonRequest.deserialize_requestBytes hb, toNat_ldb8, toNat_ldb8]
    · exact fun hascii => hdecode _ _ (encode_ascii hascii)

theorem request_interop_ascii :
    deserializeRequest ⟨[], 0, 0⟩ (requestBytes [84, 111, 109] 18 1 ++ [7]) =
        .ok (⟨[84, 111, 109], 18, 1⟩, [7]) ∧
      serializeRequest ⟨[84, 111, 109], 18, 1⟩ [] =
        (requestBytes [84, 111, 109] 18 1, .ok ()) := by
  have hascii : ∀ c ∈ ([84, 111, 109] : Text), c.val < 128 := by
    rw [List.forall_mem_cons, List.forall_mem_cons, List.forall_mem_singleton]
    decide
  have h := request_interop (fun _ _ => decodeUtf8_encode) ⟨[], 0, 0⟩ ⟨[84, 111, 109], 18, 1⟩
    (by decide) (by decide) []
  obtain ⟨⟨name, hread, hname⟩, hwrite⟩ :=
    h.2.1 [84, 111, 109] 18 1 ⟨⟨rfl, by decide⟩, rfl, rfl⟩
  obtain rfl := hname.mpr hascii
  exact ⟨hread [7], hwrite.mpr hascii⟩

end Coursework.Ros.Lisp
