import Coursework.Lib.Wire

/-!
# The messages of the service `Person`

`_Person.py` writes a request as the length of its name, the name in UTF-8, and two bytes; a
response is a string alone. How malformed UTF-8 is decoded is left to the error handler.
-/
namespace Coursework.Ros
open Wire

/-- A string of code points, surrogates among them. -/
abbrev Text := List (Fin 0x110000)

structure PersonRequest where
  name : Text
  age : ℤ
  sex : ℤ
  deriving DecidableEq

structure PersonResponse where
  result : Text
  deriving DecidableEq

inductive Error where
  /-- For `_check_types` -/
  | structError
  | unicodeEncodeError
  | deserializationError
  deriving DecidableEq

/-! ### The standard library -/

def point? (c : Fin 0x110000) : Option Char :=
  if h : c.val.isValidChar then some (Char.ofNatAux c.val h) else none

/-- `encode('utf-8')` -/
def encode (s : Text) : Option (List UInt8) :=
  (s.mapM point?).map fun l => l.flatMap String.utf8EncodeChar

/-- `struct.Struct('<I%ss' % len(x)).pack(len(x), x)` -/
def packString (x : List UInt8) : Option (List UInt8) :=
  if x.length < 256 ^ 4 then some (counted 4 x) else none

/-- `struct.Struct("<2B").pack` -/
def pack2B (a b : ℤ) : Option (List UInt8) :=
  if (0 ≤ a ∧ a < 256) ∧ 0 ≤ b ∧ b < 256 then some [UInt8.ofNat a.toNat, UInt8.ofNat b.toNat]
  else none

/-- `struct.Struct("<I").unpack` -/
def unpackI (l : List UInt8) : Option ℕ := if l.length = 4 then some (ofLe l) else none

/-- `struct.Struct("<2B").unpack` -/
def unpack2B : List UInt8 → Option (ℤ × ℤ)
  | [a, b] => some (a.toNat, b.toNat)
  | _ => none

/-! ### `_Person.py` -/

/-- A string is encoded, packed and written. -/
def writeString (buff : List UInt8) (s : Text) : List UInt8 × Except Error Unit :=
  match encode s with
  | none => (buff, .error .unicodeEncodeError)
  | some x =>
    match packString x with
    | none => (buff, .error .structError)
    | some w => (buff ++ w, .ok ())

/-- What is in `buff` afterwards, and whether an exception was raised. -/
def PersonRequest.serialize (m : PersonRequest) (buff : List UInt8) :
    List UInt8 × Except Error Unit :=
  match writeString buff m.name with
  | (buff, .error e) => (buff, .error e)
  | (buff, .ok ()) =>
    match pack2B m.age m.sex with
    | none => (buff, .error .structError)
    | some w => (buff ++ w, .ok ())

def PersonResponse.serialize (m : PersonResponse) (buff : List UInt8) :
    List UInt8 × Except Error Unit :=
  writeString buff m.result

/-- `decode` is `decode('utf-8', 'rosmsg')`. -/
def PersonRequest.deserialize (decode : List UInt8 → Text) (str : List UInt8) :
    Except Error PersonRequest :=
  match unpackI (slice str 0 4) with
  | none => .error .deserializationError
  | some length =>
    match unpack2B (slice str (4 + length) (4 + length + 2)) with
    | none => .error .deserializationError
    | some (age, sex) => .ok ⟨decode (slice str 4 (4 + length)), age, sex⟩

def PersonResponse.deserialize (decode : List UInt8 → Text) (str : List UInt8) :
    Except Error PersonResponse :=
  match unpackI (slice str 0 4) with
  | none => .error .deserializationError
  | some length => .ok ⟨decode (slice str 4 (4 + length))⟩

variable {decode : List UInt8 → Text} {s : Text} {b buff str rest : List UInt8}

/-! ### The encoding of strings -/

theorem point?_eq_some {c : Fin 0x110000} {l : Char} : point? c = some l ↔ l.val.toNat = c.val := by
  constructor
  · intro h
    by_cases hc : c.val.isValidChar
    · rw [point?, dif_pos hc] at h
      rw [← Option.some.inj h]
      rfl
    · rw [point?, dif_neg hc] at h
      cases h
  · intro h
    have hc : c.val.isValidChar := by
      rw [← h]
      exact l.valid
    have hl : Char.ofNatAux c.val hc = l := by
      apply Char.ext
      apply UInt32.toNat_inj.mp
      exact h.symm
    rw [point?, dif_pos hc, hl]

theorem encode_cons {c : Fin 0x110000} : encode (c :: s) = some b ↔
    ∃ (l : Char) (b' : List UInt8), point? c = some l ∧ encode s = some b' ∧
      b = String.utf8EncodeChar l ++ b' := by
  simp only [encode, List.mapM_cons, Option.bind_eq_bind, Option.pure_def]
  cases point? c with
  | none => simp
  | some l =>
    cases s.mapM point? with
    | none => simp
    | some ls => simp [eq_comm]

/-- The code point of a character. -/
def pointOf (l : Char) : Fin 0x110000 :=
  ⟨l.val.toNat, by
    have h := l.valid
    simp only [UInt32.isValidChar, Nat.isValidChar] at h
    omega⟩

/-- `decode('utf-8')` of what has been encoded. -/
def decodeUtf8 (b : List UInt8) : Text :=
  match b.toByteArray.utf8Decode? with
  | some l => l.toList.map pointOf
  | none => []

theorem map_pointOf {l : List Char} (h : s.mapM point? = some l) : l.map pointOf = s := by
  induction s generalizing l with
  | nil =>
    cases h
    rfl
  | cons c s ih =>
    simp only [List.mapM_cons, Option.bind_eq_bind, Option.pure_def, Option.bind_eq_some_iff] at h
    obtain ⟨a, ha, l', hl', h⟩ := h
    cases h
    rw [List.map_cons, ih hl']
    congr 1
    exact Fin.ext (point?_eq_some.mp ha)

theorem decodeUtf8_encode (h : encode s = some b) : decodeUtf8 b = s := by
  rw [encode, Option.map_eq_some_iff] at h
  obtain ⟨l, hl, rfl⟩ := h
  have hdecode : (l.flatMap String.utf8EncodeChar).toByteArray.utf8Decode? = some l.toArray :=
    List.utf8Decode?_utf8Encode
  rw [decodeUtf8, hdecode]
  exact map_pointOf hl

/-! ### What is written -/

/-- The string has an encoding, which is not too long. -/
def Encodes (s : Text) (b : List UInt8) : Prop := encode s = some b ∧ b.length < 256 ^ 4

/-- The bytes of a request, in which the two numbers are bytes. -/
def requestBytes (b : List UInt8) (age sex : UInt8) : List UInt8 := counted 4 b ++ [age, sex]

theorem writeString_ok (h : Encodes s b) :
    writeString buff s = (buff ++ counted 4 b, .ok ()) := by
  rw [writeString, h.1]
  simp only [packString, if_pos h.2]

theorem writeString_ok_iff : (writeString buff s).2 = .ok () ↔ ∃ b, Encodes s b := by
  constructor
  · intro h
    rw [writeString] at h
    cases hb : encode s with
    | none =>
      rw [hb] at h
      cases h
    | some x =>
      refine ⟨x, hb, ?_⟩
      by_contra hlong
      rw [hb] at h
      simp only [packString, if_neg hlong] at h
      cases h
  · rintro ⟨b, hb⟩
    rw [writeString_ok hb]

theorem pack2B_eq_some {x y : ℤ} {w : List UInt8} : pack2B x y = some w ↔
    ∃ a c : UInt8, x = a.toNat ∧ y = c.toNat ∧ w = [a, c] := by
  rw [pack2B, Option.ite_none_right_eq_some]
  constructor
  · rintro ⟨⟨hx, hy⟩, h⟩
    refine ⟨_, _, ?_, ?_, (Option.some.inj h).symm⟩
    · rw [UInt8.toNat_ofNat']
      omega
    · rw [UInt8.toNat_ofNat']
      omega
  · rintro ⟨a, c, rfl, rfl, rfl⟩
    have ha := a.toNat_lt
    have hc := c.toNat_lt
    refine ⟨⟨⟨by omega, by omega⟩, by omega, by omega⟩, ?_⟩
    rw [Int.toNat_natCast, Int.toNat_natCast, UInt8.ofNat_toNat, UInt8.ofNat_toNat]

/-- The request can be written. -/
def PersonRequest.Writes (m : PersonRequest) (b : List UInt8) (age sex : UInt8) : Prop :=
  Encodes m.name b ∧ m.age = age.toNat ∧ m.sex = sex.toNat

theorem PersonRequest.serialize_of_writes {m : PersonRequest} {age sex : UInt8}
    (h : m.Writes b age sex) : m.serialize buff = (buff ++ requestBytes b age sex, .ok ()) := by
  obtain ⟨hname, hage, hsex⟩ := h
  have hpack := pack2B_eq_some.mpr ⟨age, sex, hage, hsex, rfl⟩
  rw [PersonRequest.serialize, writeString_ok hname]
  simp only [hpack, requestBytes, List.append_assoc]

/-- A request is written where its fields have encodings, and else an exception is raised. -/
theorem PersonRequest.serialize_ok_iff {m : PersonRequest} :
    (m.serialize buff).2 = .ok () ↔ ∃ b age sex, m.Writes b age sex := by
  constructor
  · intro h
    have hname : ∃ b, Encodes m.name b := by
      apply (@writeString_ok_iff _ buff).mp
      rw [PersonRequest.serialize] at h
      cases hw : writeString buff m.name with
      | mk buff' result =>
        cases result with
        | ok u => rfl
        | error e =>
          rw [hw] at h
          cases h
    obtain ⟨b, hb⟩ := hname
    rw [PersonRequest.serialize, writeString_ok hb] at h
    cases hpack : pack2B m.age m.sex with
    | none =>
      simp only [hpack] at h
      cases h
    | some w =>
      obtain ⟨age, sex, hage, hsex, -⟩ := pack2B_eq_some.mp hpack
      exact ⟨b, age, sex, hb, hage, hsex⟩
  · rintro ⟨b, age, sex, h⟩
    rw [serialize_of_writes h]

/-! ### What is read -/

@[simp] theorem length_requestBytes (b : List UInt8) (age sex : UInt8) :
    (requestBytes b age sex).length = b.length + 6 := by
  rw [requestBytes, List.length_append, length_counted, List.length_cons, List.length_singleton]
  omega

theorem unpackI_eq_some {n : ℕ} {l : List UInt8} (h : unpackI l = some n) : l = le n 4 := by
  rw [unpackI, Option.ite_none_right_eq_some] at h
  obtain ⟨hlength, hn⟩ := h
  rw [← Option.some.inj hn, ← hlength, le_ofLe]

theorem unpack2B_eq_some {x y : ℤ} {l : List UInt8} (h : unpack2B l = some (x, y)) :
    ∃ a c : UInt8, x = a.toNat ∧ y = c.toNat ∧ l = [a, c] := by
  match l, h with
  | [a, c], h =>
    obtain ⟨rfl, rfl⟩ := Prod.mk.inj (Option.some.inj h)
    exact ⟨a, c, rfl, rfl, rfl⟩

theorem unpackI_counted (h : b.length < 256 ^ 4) :
    unpackI (slice (counted 4 b ++ rest) 0 4) = some b.length := by
  rw [(slice_counted 4 b rest (c := 0) (Nat.le_refl _)).1, unpackI, if_pos (length_le _ _),
    ofLe_le h]

/-- A request is read from the front of what follows it. -/
theorem PersonRequest.deserialize_requestBytes (h : b.length < 256 ^ 4) (age sex : UInt8) :
    deserialize decode (requestBytes b age sex ++ rest) =
      .ok ⟨decode b, age.toNat, sex.toNat⟩ := by
  have hslice := slice_counted 4 b ([age, sex] ++ rest) (Nat.le_refl _) (c := 4 + b.length + 2)
  have hpair : slice ([age, sex] ++ rest) 0 2 = [age, sex] := slice_append rfl
  rw [requestBytes, List.append_assoc, deserialize, unpackI_counted h]
  simp only [hslice, Nat.sub_self, Nat.add_sub_cancel_left, hpair, unpack2B]

/-- Nothing else is read as a request. -/
theorem PersonRequest.deserialize_eq_ok {m : PersonRequest} (h : deserialize decode str = .ok m) :
    ∃ b age sex rest, b.length < 256 ^ 4 ∧ str = requestBytes b age sex ++ rest ∧
      m = ⟨decode b, age.toNat, sex.toNat⟩ := by
  rw [deserialize] at h
  cases hn : unpackI (slice str 0 4) with
  | none => simp only [hn, reduceCtorEq] at h
  | some n =>
    cases hnumbers : unpack2B (slice str (4 + n) (4 + n + 2)) with
    | none => simp only [hn, hnumbers, reduceCtorEq] at h
    | some p =>
      obtain ⟨x, y⟩ := p
      simp only [hn, hnumbers, Except.ok.injEq] at h
      obtain ⟨age, sex, rfl, rfl, hpair⟩ := unpack2B_eq_some hnumbers
      have hcount := unpackI_eq_some hn
      have hname : (slice str 4 (4 + n)).length = n := by
        have hlength := congrArg List.length hpair
        rw [length_slice, List.length_cons, List.length_singleton] at hlength
        rw [length_slice]
        omega
      have hsmall : n < 256 ^ 4 := by
        have hlt := ofLe_lt (slice str 0 4)
        rw [unpackI, Option.ite_none_right_eq_some] at hn
        rwa [Option.some.inj hn.2, hn.1] at hlt
      refine ⟨slice str 4 (4 + n), age, sex, str.drop (4 + n + 2), ?_, ?_, h.symm⟩
      · rwa [hname]
      · rw [requestBytes, counted, hname, ← hcount, ← hpair, List.append_assoc, List.append_assoc,
          slice_append_drop _ (Nat.le_add_right _ _), slice_append_drop _ (Nat.le_add_right _ _),
          slice_append_drop _ (Nat.zero_le _), List.drop_zero]

theorem PersonRequest.deserialize_eq_error {e : Error} (h : deserialize decode str = .error e) :
    e = .deserializationError := by
  rw [deserialize] at h
  cases hn : unpackI (slice str 0 4) with
  | none =>
    simp only [hn, Except.error.injEq] at h
    exact h.symm
  | some n =>
    cases hnumbers : unpack2B (slice str (4 + n) (4 + n + 2)) with
    | none =>
      simp only [hn, hnumbers, Except.error.injEq] at h
      exact h.symm
    | some p => simp only [hn, hnumbers, reduceCtorEq] at h

/-- No part of a request is one. -/
theorem PersonRequest.deserialize_take {k : ℕ} {age sex : UInt8} (hb : b.length < 256 ^ 4)
    (hk : k < b.length + 6) :
    deserialize decode ((requestBytes b age sex).take k) = .error .deserializationError := by
  cases h : deserialize decode ((requestBytes b age sex).take k) with
  | error e => rw [deserialize_eq_error h]
  | ok m =>
    obtain ⟨b', age', sex', rest', hb', hstr, -⟩ := deserialize_eq_ok h
    have hwhole := List.take_append_drop k (requestBytes b age sex)
    rw [hstr, requestBytes, requestBytes, List.append_assoc, List.append_assoc] at hwhole
    obtain ⟨rfl, -⟩ := counted_append_inj hb' hb hwhole
    have hlength := congrArg List.length hstr
    rw [List.length_take, List.length_append, length_requestBytes, length_requestBytes] at hlength
    omega

theorem PersonResponse.deserialize_counted (hb : b.length < 256 ^ 4) :
    deserialize decode (counted 4 b ++ rest) = .ok ⟨decode b⟩ := by
  have hname := (slice_counted 4 b rest (c := 0) (Nat.le_refl _)).2.1
  rw [deserialize, unpackI_counted hb]
  simp only [hname]

/-- Of a response, the beginning of the string is read. -/
theorem PersonResponse.deserialize_take {k : ℕ} (hb : b.length < 256 ^ 4) (hk : 4 ≤ k) :
    deserialize decode ((counted 4 b).take k) = .ok ⟨decode (b.take (k - 4))⟩ := by
  have htake : (counted 4 b).take k = le b.length 4 ++ b.take (k - 4) := by
    rw [counted, List.take_append, length_le, List.take_of_length_le (by rwa [length_le])]
  have hcount : unpackI (slice (le b.length 4 ++ b.take (k - 4)) 0 4) = some b.length := by
    rw [slice_append (length_le _ _), unpackI, if_pos (length_le _ _), ofLe_le hb]
  have hname : slice (le b.length 4 ++ b.take (k - 4)) 4 (4 + b.length) = b.take (k - 4) := by
    rw [slice_append_right _ _ (Nat.le_of_eq (length_le _ _)), length_le, slice,
      Nat.sub_self, List.drop_zero, Nat.add_sub_cancel_left]
    exact List.take_of_length_le (List.length_take_le' _ _)
  rw [htake, deserialize, hcount]
  simp only [hname]

/-- The messages that are written are read back, whatever follows a request. No part of a request
is accepted, but from four bytes on every part of a response is, with a shorter string in it. -/
theorem person_round_trip (hdecode : ∀ s b, encode s = some b → decode b = s) (m : PersonRequest)
    (r : PersonResponse) (buff : List UInt8) :
    ((m.serialize buff).2 = .ok () ↔ ∃ b age sex, m.Writes b age sex) ∧
      (∀ b age sex, m.Writes b age sex →
        m.serialize buff = (buff ++ requestBytes b age sex, .ok ()) ∧
        (∀ rest, PersonRequest.deserialize decode (requestBytes b age sex ++ rest) = .ok m) ∧
        ∀ k < b.length + 6,
          PersonRequest.deserialize decode ((requestBytes b age sex).take k) =
            .error .deserializationError) ∧
      (∀ str, PersonRequest.deserialize decode str = .ok m ↔
        ∃ b age sex rest, b.length < 256 ^ 4 ∧ str = requestBytes b age sex ++ rest ∧
          m = ⟨decode b, age.toNat, sex.toNat⟩) ∧
      ((r.serialize buff).2 = .ok () ↔ ∃ b, Encodes r.result b) ∧
      ∀ b, Encodes r.result b →
        r.serialize buff = (buff ++ counted 4 b, .ok ()) ∧
        (∀ rest, PersonResponse.deserialize decode (counted 4 b ++ rest) = .ok r) ∧
        ∀ k, 4 ≤ k →
          PersonResponse.deserialize decode ((counted 4 b).take k) =
            .ok ⟨decode (b.take (k - 4))⟩ := by
  refine ⟨m.serialize_ok_iff, ?_, ?_, writeString_ok_iff, ?_⟩
  · intro b age sex h
    obtain ⟨⟨hname, hb⟩, hage, hsex⟩ := h
    refine ⟨m.serialize_of_writes ⟨⟨hname, hb⟩, hage, hsex⟩, fun rest => ?_, fun k hk => ?_⟩
    · rw [PersonRequest.deserialize_requestBytes hb, hdecode _ _ hname, ← hage, ← hsex]
    · exact PersonRequest.deserialize_take hb hk
  · intro str
    constructor
    · exact PersonRequest.deserialize_eq_ok
    · rintro ⟨b, age, sex, rest, hb, rfl, rfl⟩
      exact PersonRequest.deserialize_requestBytes hb age sex
  · rintro b ⟨hname, hb⟩
    refine ⟨writeString_ok ⟨hname, hb⟩, fun rest => ?_, fun k hk => ?_⟩
    · rw [PersonResponse.deserialize_counted hb, hdecode _ _ hname]
    · exact PersonResponse.deserialize_take hb hk

theorem person_round_trip_accent : PersonRequest.deserialize decodeUtf8
      (requestBytes [0xC3, 0xA9] 18 1 ++ [7]) = .ok ⟨[0xE9], 18, 1⟩ ∧
    PersonRequest.deserialize decodeUtf8 ((requestBytes [0xC3, 0xA9] 18 1).take 7) =
      .error .deserializationError :=
  have h := (person_round_trip (fun _ _ => decodeUtf8_encode) ⟨[0xE9], 18, 1⟩ ⟨[]⟩ []).2.1
    [0xC3, 0xA9] 18 1 ⟨⟨rfl, by decide⟩, rfl, rfl⟩
  ⟨h.2.1 [7], h.2.2 7 (by decide)⟩

end Coursework.Ros
