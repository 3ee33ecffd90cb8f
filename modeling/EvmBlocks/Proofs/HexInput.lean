import EvmBlocks.HexInput
import Mathlib.Data.List.Basic

/-!
# EvmBlocks.Proofs.HexInput

The grammar of hexadecimal texts.

A text is accepted if it consists of blanks, at most one marker, digits, and
blanks again, where the digits *spell* the bytes: two digits of either case for
each byte, high half first.  The value of a digit is its place in the row of the
sixteen digits, so the grammar says nothing about how a digit is recognised.

Reading is followed in three layers.  `readDigits_eq_ok_iff` is about the pairs,
`stripMarker_append` about the marker, which digits cannot be mistaken for, and
`trim_append` about the blanks, none of which stands between the marker and the
last digit.  So the parts of an accepted text are found again
(`body_append`), and `parse_eq_ok_iff_grammar` joins the two directions.
-/

namespace EvmBlocks.HexInput

/-! ## the grammar -/

/-- The bytes of a text, one for each character. -/
def ascii (s : String) : List UInt8 := s.toList.map Char.toUInt8

/-- Space, tab, line feed, form feed and carriage return. -/
def blanks : List UInt8 := [0x20, 0x09, 0x0a, 0x0c, 0x0d]

/-- The marker in front of the digits, which may be absent. -/
def markers : List (List UInt8) := [[], ascii "0x", ascii "0X"]

/-- The digit, of either case, has this value. -/
def HasValue (digit : UInt8) (value : Nat) : Prop :=
  (ascii "0123456789abcdef")[value]? = some digit ∨
    (ascii "0123456789ABCDEF")[value]? = some digit

instance (digit : UInt8) (value : Nat) : Decidable (HasValue digit value) :=
  inferInstanceAs (Decidable (_ ∨ _))

/-- Two digits denote a byte, high half first. -/
def IsPair (high low byte : UInt8) : Prop :=
  ∃ h l, HasValue high h ∧ HasValue low l ∧ byte.toNat = 16 * h + l

/-- The digits spell the bytes: there are two digits for each byte, and the
`k`-th pair of them denotes the `k`-th byte. -/
structure Spells (digits bytes : List UInt8) : Prop where
  length_eq : digits.length = 2 * bytes.length
  pair : ∀ k byte, bytes[k]? = some byte →
    ∃ high low, digits[2 * k]? = some high ∧ digits[2 * k + 1]? = some low ∧ IsPair high low byte

variable {text digits bytes left marker right core : List UInt8} {c high low byte : UInt8}

/-! ## digits -/

theorem isBlank_iff : isBlank c = true ↔ c ∈ blanks := by
  simp [isBlank, blanks, or_assoc]

/-- The digits are at their places in the two rows. -/
theorem digit?_of_hasValue {value : Nat} (h : HasValue c value) :
    digit? c = some (UInt8.ofNat value) ∧ value < 16 := by
  have hlower : ∀ value < 16, (ascii "0123456789abcdef")[value]?.bind digit? =
      some (UInt8.ofNat value) := by decide
  have hupper : ∀ value < 16, (ascii "0123456789ABCDEF")[value]?.bind digit? =
      some (UInt8.ofNat value) := by decide
  have hlt : value < 16 := by
    rcases h with h | h <;> exact (List.getElem?_eq_some_iff.mp h).1
  refine ⟨?_, hlt⟩
  rcases h with h | h
  · simpa [h] using hlower value hlt
  · simpa [h] using hupper value hlt

/-- A byte that is read as a digit has its value. -/
theorem hasValue_of_digit? {value : UInt8} (h : digit? c = some value) :
    HasValue c value.toNat := by
  have hbytes : ∀ n < 256, (digit? (UInt8.ofNat n)).all
      (fun value => HasValue (UInt8.ofNat n) value.toNat) = true := by
    decide +kernel
  have hc := hbytes c.toNat c.toNat_lt
  rw [UInt8.ofNat_toNat, h] at hc
  exact of_decide_eq_true hc

/-- No digit is a blank or the letter of the marker. -/
theorem ne_of_hasValue {value : Nat} (h : HasValue c value) :
    c ∉ blanks ∧ c ≠ 0x78 ∧ c ≠ 0x58 := by
  have hothers : (blanks ++ [0x78, 0x58]).all (fun c => (digit? c).isNone) = true := by decide
  have hnot : c ∉ blanks ++ [0x78, 0x58] := by
    intro hc
    have hnone := List.all_eq_true.mp hothers c hc
    rw [(digit?_of_hasValue h).1] at hnone
    exact Bool.false_ne_true hnone
  simpa using hnot

/-- A pair denotes the byte that is read from it. -/
theorem isPair_iff : IsPair high low byte ↔
    ∃ h l, digit? high = some h ∧ digit? low = some l ∧ byte = h * 16 + l := by
  constructor
  · rintro ⟨h, l, hhigh, hlow, hbyte⟩
    obtain ⟨hh, hlt⟩ := digit?_of_hasValue hhigh
    obtain ⟨hl, hlt'⟩ := digit?_of_hasValue hlow
    refine ⟨_, _, hh, hl, UInt8.toNat_inj.mp ?_⟩
    simp only [UInt8.toNat_add, UInt8.toNat_mul, UInt8.toNat_ofNat', UInt8.reduceToNat, hbyte]
    omega
  · rintro ⟨h, l, hhigh, hlow, rfl⟩
    have hhigh := hasValue_of_digit? hhigh
    have hlow := hasValue_of_digit? hlow
    have hlt := (digit?_of_hasValue hhigh).2
    have hlt' := (digit?_of_hasValue hlow).2
    refine ⟨h.toNat, l.toNat, hhigh, hlow, ?_⟩
    simp only [UInt8.toNat_add, UInt8.toNat_mul, UInt8.reduceToNat]
    omega

/-! ## spelled bytes -/

@[simp] theorem spells_nil : Spells digits [] ↔ digits = [] := by
  constructor
  · intro h
    simpa using h.length_eq
  · rintro rfl
    exact ⟨rfl, by simp⟩

/-- The first pair of digits denotes the first byte, and the others spell the
others. -/
theorem spells_cons : Spells digits (byte :: bytes) ↔
    ∃ high low rest, digits = high :: low :: rest ∧ IsPair high low byte ∧ Spells rest bytes := by
  constructor
  · rintro ⟨hlen, hpair⟩
    match digits, hlen with
    | high :: low :: rest, hlen =>
        have hfirst : IsPair high low byte := by simpa using hpair 0 byte rfl
        refine ⟨high, low, rest, rfl, hfirst, ?_, fun k b hb => ?_⟩
        · simp only [List.length_cons] at hlen
          omega
        · simpa [Nat.mul_add] using hpair (k + 1) b hb
  · rintro ⟨high, low, rest, rfl, hfirst, hlen, hpair⟩
    refine ⟨by simp [hlen, Nat.mul_add], fun k b hb => ?_⟩
    cases k with
    | zero =>
        obtain rfl : byte = b := by simpa using hb
        exact ⟨high, low, rfl, rfl, hfirst⟩
    | succ k => simpa [Nat.mul_add] using hpair k b hb

/-- Every byte of a spelling is a digit. -/
theorem Spells.hasValue (h : Spells digits bytes) : ∀ c ∈ digits, ∃ value, HasValue c value := by
  induction bytes generalizing digits with
  | nil => simp [spells_nil.mp h]
  | cons byte bytes ih =>
      obtain ⟨high, low, rest, rfl, ⟨hi, lo, hhigh, hlow, -⟩, hrest⟩ := spells_cons.mp h
      simpa using ⟨⟨hi, hhigh⟩, ⟨lo, hlow⟩, ih hrest⟩

/-! ## reading pairs -/

theorem spells_nil_left : Spells [] bytes ↔ bytes = [] := by
  cases bytes <;> simp [spells_cons]

theorem not_spells_singleton : ¬ Spells [c] bytes := by
  cases bytes <;> simp [spells_cons]

theorem spells_cons_cons : Spells (high :: low :: digits) bytes ↔
    ∃ byte read, bytes = byte :: read ∧ IsPair high low byte ∧ Spells digits read := by
  cases bytes with
  | nil => simp
  | cons byte bytes =>
      rw [spells_cons]
      constructor
      · rintro ⟨_, _, _, hdigits, hpair, hrest⟩
        simp only [List.cons.injEq] at hdigits
        obtain ⟨rfl, rfl, rfl⟩ := hdigits
        exact ⟨byte, bytes, rfl, hpair, hrest⟩
      · rintro ⟨_, _, hbytes, hpair, hrest⟩
        obtain ⟨rfl, rfl⟩ := List.cons.inj hbytes
        exact ⟨high, low, digits, rfl, hpair, hrest⟩

/-- Reading pairs appends the bytes that they spell to those read before. -/
theorem readPairs_eq_ok_iff (position : Nat) (acc digits bytes : List UInt8) :
    readPairs position acc digits = .ok bytes ↔
      ∃ read, Spells digits read ∧ bytes = acc.reverse ++ read := by
  fun_induction readPairs position acc digits with
  | case1 position acc => simp [spells_nil_left, eq_comm]
  | case2 position acc c => simp [not_spells_singleton]
  | case3 position acc high low rest hhigh => simp [spells_cons_cons, isPair_iff, hhigh]
  | case4 position acc high low rest h hlow hhigh => simp [spells_cons_cons, isPair_iff, hlow]
  | case5 position acc high low rest h l hlow hhigh ih =>
      rw [ih]
      simp [spells_cons_cons, isPair_iff, hhigh, hlow]

/-- A run of digits is read as the bytes that it spells. -/
theorem readDigits_eq_ok_iff : readDigits digits = .ok bytes ↔ Spells digits bytes := by
  unfold readDigits
  split
  · simp [readPairs_eq_ok_iff]
  · simp only [reduceCtorEq, false_iff]
    intro h
    have := h.length_eq
    omega

/-! ## the marker -/

theorem notMem_blanks_of_mem_marker (hmarker : marker ∈ markers) (hc : c ∈ marker) :
    c ∉ blanks := by
  have hmarkers : markers.flatten.all (fun c => c ∉ blanks) = true := by decide
  have hmem : c ∈ markers.flatten := List.mem_flatten.mpr ⟨marker, hmarker, hc⟩
  exact of_decide_eq_true (List.all_eq_true.mp hmarkers c hmem)

theorem exists_marker (text : List UInt8) :
    ∃ marker ∈ markers, text = marker ++ stripMarker text := by
  fun_cases stripMarker text with
  | case1 rest => exact ⟨ascii "0x", by decide, rfl⟩
  | case2 rest => exact ⟨ascii "0X", by decide, rfl⟩
  | case3 => exact ⟨[], by decide, rfl⟩

/-- Digits have no marker of their own, so the marker in front of them is the one
that is dropped. -/
theorem stripMarker_append (hmarker : marker ∈ markers)
    (hdigits : ∀ c ∈ digits, ∃ value, HasValue c value) :
    stripMarker (marker ++ digits) = digits := by
  simp only [markers, List.mem_cons, List.not_mem_nil, or_false] at hmarker
  rcases hmarker with rfl | rfl | rfl
  · rw [List.nil_append]
    fun_cases stripMarker digits with
    | case1 rest =>
        obtain ⟨value, h⟩ := hdigits 0x78 (by simp)
        exact absurd rfl (ne_of_hasValue h).2.1
    | case2 rest =>
        obtain ⟨value, h⟩ := hdigits 0x58 (by simp)
        exact absurd rfl (ne_of_hasValue h).2.2
    | case3 => rfl
  · rfl
  · rfl

/-! ## the blanks -/

theorem mem_blanks_of_mem_takeWhile (h : c ∈ text.takeWhile isBlank) : c ∈ blanks :=
  isBlank_iff.mp (List.all_eq_true.mp List.all_takeWhile c h)

theorem exists_trim (text : List UInt8) :
    ∃ left right, (∀ c ∈ left, c ∈ blanks) ∧ (∀ c ∈ right, c ∈ blanks) ∧
      text = left ++ (trim text ++ right) := by
  refine ⟨text.takeWhile isBlank, ((text.dropWhile isBlank).reverse.takeWhile isBlank).reverse,
    fun c => mem_blanks_of_mem_takeWhile, fun c hc => ?_, ?_⟩
  · exact mem_blanks_of_mem_takeWhile (List.mem_reverse.mp hc)
  · rw [trim, ← List.reverse_append, List.takeWhile_append_dropWhile, List.reverse_reverse,
      List.takeWhile_append_dropWhile]

/-- Blanks are dropped in front of a text that does not begin with one. -/
theorem dropWhile_isBlank_append (hleft : ∀ c ∈ left, c ∈ blanks)
    (hhead : ∀ c ∈ text.head?, c ∉ blanks) : (left ++ text).dropWhile isBlank = text := by
  rw [List.dropWhile_append_of_pos fun c hc => isBlank_iff.mpr (hleft c hc)]
  cases text with
  | nil => rfl
  | cons c text =>
      have hc := hhead c rfl
      rw [← isBlank_iff] at hc
      simp [hc]

/-- Blanks around a text without blanks at its ends are what is trimmed. -/
theorem trim_append (hleft : ∀ c ∈ left, c ∈ blanks) (hhead : ∀ c ∈ core.head?, c ∉ blanks)
    (hlast : ∀ c ∈ core.getLast?, c ∉ blanks) (hright : ∀ c ∈ right, c ∈ blanks) :
    trim (left ++ (core ++ right)) = core := by
  have hback : (right.reverse ++ core.reverse).dropWhile isBlank = core.reverse :=
    dropWhile_isBlank_append (by simpa using hright) (by simpa using hlast)
  cases core with
  | nil =>
      -- Nothing but blanks, and all of them are in front.
      have hall : ∀ c ∈ left ++ right, c ∈ blanks := by
        simpa [or_imp, forall_and] using ⟨hleft, hright⟩
      have hfront : (left ++ right ++ []).dropWhile isBlank = [] :=
        dropWhile_isBlank_append hall (by simp)
      rw [List.append_nil] at hfront
      simp [trim, hfront]
  | cons c core =>
      have hfront : (left ++ (c :: core ++ right)).dropWhile isBlank = c :: core ++ right :=
        dropWhile_isBlank_append hleft (by simpa using hhead)
      rw [trim, hfront, List.reverse_append, hback, List.reverse_reverse]

/-! ## whole texts -/

/-- What has to be digits in a text of the grammar are its digits. -/
theorem body_append (hleft : ∀ c ∈ left, c ∈ blanks) (hmarker : marker ∈ markers)
    (hdigits : ∀ c ∈ digits, ∃ value, HasValue c value) (hright : ∀ c ∈ right, c ∈ blanks) :
    body (left ++ ((marker ++ digits) ++ right)) = digits := by
  have hcore : ∀ c ∈ marker ++ digits, c ∉ blanks := by
    intro c hc
    rcases List.mem_append.mp hc with hc | hc
    · exact notMem_blanks_of_mem_marker hmarker hc
    · obtain ⟨value, hvalue⟩ := hdigits c hc
      exact (ne_of_hasValue hvalue).1
  have htrim : trim (left ++ ((marker ++ digits) ++ right)) = marker ++ digits :=
    trim_append hleft (fun c hc => hcore c (List.mem_of_mem_head? hc))
      (fun c hc => hcore c (List.mem_of_mem_getLast? hc)) hright
  rw [body, htrim, stripMarker_append hmarker hdigits]

/-- A text is made up of blanks, a marker, its body, and blanks. -/
theorem exists_body (text : List UInt8) :
    ∃ left right, ∃ marker ∈ markers, (∀ c ∈ left, c ∈ blanks) ∧ (∀ c ∈ right, c ∈ blanks) ∧
      text = left ++ ((marker ++ body text) ++ right) := by
  obtain ⟨left, right, hleft, hright, htext⟩ := exists_trim text
  obtain ⟨marker, hmarker, htrim⟩ := exists_marker (trim text)
  refine ⟨left, right, marker, hmarker, hleft, hright, ?_⟩
  rw [body, ← htrim]
  exact htext

/-- Digits that spell some bytes, with a marker or without and between blanks, are
read as these bytes. -/
theorem parse_append (hleft : ∀ c ∈ left, c ∈ blanks) (hmarker : marker ∈ markers)
    (hdigits : Spells digits bytes) (hright : ∀ c ∈ right, c ∈ blanks) :
    parse (left ++ ((marker ++ digits) ++ right)) = .ok bytes := by
  rw [parse, body_append hleft hmarker hdigits.hasValue hright, readDigits_eq_ok_iff]
  exact hdigits

/-- Reading accepts exactly the texts of the grammar, and gives the bytes that
their digits spell: blanks, the marker `0x` or `0X` or none, two digits of either
case for each byte, blanks. -/
theorem parse_eq_ok_iff_grammar (text bytes : List UInt8) :
    parse text = .ok bytes ↔
      ∃ left marker digits right, text = left ++ marker ++ digits ++ right ∧
        (∀ c ∈ left, c ∈ blanks) ∧ (∀ c ∈ right, c ∈ blanks) ∧ marker ∈ markers ∧
        Spells digits bytes := by
  constructor
  · intro h
    obtain ⟨left, right, marker, hmarker, hleft, hright, htext⟩ := exists_body text
    refine ⟨left, marker, body text, right, ?_, hleft, hright, hmarker,
      readDigits_eq_ok_iff.mp h⟩
    simpa using htext
  · rintro ⟨left, marker, digits, right, rfl, hleft, hright, hmarker, hdigits⟩
    simpa using parse_append hleft hmarker hdigits hright

end EvmBlocks.HexInput
