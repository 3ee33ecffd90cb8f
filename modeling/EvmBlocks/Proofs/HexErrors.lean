import EvmBlocks.Proofs.HexInput

/-!
# EvmBlocks.Proofs.HexErrors

Which error a text that is not hexadecimal gives.

The error is about what remains of a text when its blanks and its marker are gone.
`HasBody` says what remains without saying how it is found: a text has exactly one body
(`hasBody_iff`).  If its length is odd, this is the error; otherwise the error is the
first byte that is no digit (`FirstInvalid`), although digits are read in pairs
(`readPairs_eq_error_iff`).  Positions count from the start of the body, so
blanks around a text and a marker in front of it do not show
(`parse_reports_first_error`).
-/

namespace EvmBlocks.HexInput

/-! ## what remains of a text -/

/-- A text is another one between blanks, where the other one neither begins nor ends
with a blank. -/
structure Trimmed (text core : List UInt8) : Prop where
  blanks_around : ∃ left right, text = left ++ (core ++ right) ∧
    (∀ c ∈ left, c ∈ blanks) ∧ ∀ c ∈ right, c ∈ blanks
  head : ∀ c ∈ core.head?, c ∉ blanks
  last : ∀ c ∈ core.getLast?, c ∉ blanks

/-- The text begins with no marker. -/
def Bare (text : List UInt8) : Prop := ¬ ascii "0x" <+: text ∧ ¬ ascii "0X" <+: text

instance (text : List UInt8) : Decidable (Bare text) := inferInstanceAs (Decidable (_ ∧ _))

/-- A text is another one behind a marker, or has no marker and is the other one. -/
inductive Unmarked : List UInt8 → List UInt8 → Prop where
  | lower (rest : List UInt8) : Unmarked (ascii "0x" ++ rest) rest
  | upper (rest : List UInt8) : Unmarked (ascii "0X" ++ rest) rest
  | bare {text : List UInt8} (h : Bare text) : Unmarked text text

/-- What remains of a text without the blanks around it and then without one marker. -/
def HasBody (text digits : List UInt8) : Prop := ∃ core, Trimmed text core ∧ Unmarked core digits

/-- The byte `c` at `position` is the first one that is no digit. -/
structure FirstInvalid (digits : List UInt8) (c : UInt8) (position : Nat) : Prop where
  here : digits[position]? = some c
  invalid : ∀ value, ¬ HasValue c value
  before : ∀ k < position, ∀ c', digits[k]? = some c' → ∃ value, HasValue c' value

variable {text core digits left right marker : List UInt8} {b c : UInt8} {position : Nat}

theorem notMem_blanks_of_mem_head?_dropWhile (text : List UInt8)
    (h : c ∈ (text.dropWhile isBlank).head?) : c ∉ blanks := by
  have hnot := List.head?_dropWhile_not isBlank text
  rw [Option.mem_def.mp h] at hnot
  rw [← isBlank_iff, hnot]
  exact Bool.false_ne_true

/-- A text is trimmed to what trimming gives, and to nothing else. -/
theorem trimmed_iff : Trimmed text core ↔ core = trim text := by
  constructor
  · intro h
    obtain ⟨⟨left, right, rfl, hleft, hright⟩, hhead, hlast⟩ := h
    exact (trim_append hleft hhead hlast hright).symm
  · rintro rfl
    obtain ⟨left, right, hleft, hright, htext⟩ := exists_trim text
    refine ⟨⟨left, right, htext, hleft, hright⟩, ?_, ?_⟩
    · have hfront : trim text <+: text.dropWhile isBlank := by
        rw [trim, ← List.reverse_suffix, List.reverse_reverse]
        exact List.dropWhile_suffix isBlank
      obtain ⟨back, hback⟩ := hfront
      intro c hc
      apply notMem_blanks_of_mem_head?_dropWhile text
      simp [← hback, Option.mem_def.mp hc]
    · rw [trim, List.getLast?_reverse]
      exact fun c hc => notMem_blanks_of_mem_head?_dropWhile _ hc

theorem unmarked_iff : Unmarked core digits ↔ digits = stripMarker core := by
  constructor
  · intro h
    cases h with
    | lower => rfl
    | upper => rfl
    | bare h =>
        fun_cases stripMarker core with
        | case1 rest => exact absurd ⟨rest, rfl⟩ h.1
        | case2 rest => exact absurd ⟨rest, rfl⟩ h.2
        | case3 => rfl
  · rintro rfl
    fun_cases stripMarker core with
    | case1 rest => exact .lower rest
    | case2 rest => exact .upper rest
    | case3 _ hlower hupper =>
        refine .bare ⟨?_, ?_⟩
        · rintro ⟨rest, rfl⟩
          exact hlower rest rfl
        · rintro ⟨rest, rfl⟩
          exact hupper rest rfl

/-- A text has exactly one body. -/
theorem hasBody_iff : HasBody text digits ↔ digits = body text := by
  simp [HasBody, trimmed_iff, unmarked_iff, body]

theorem parse_of_hasBody (h : HasBody text digits) : parse text = readDigits digits := by
  rw [parse, hasBody_iff.mp h]

/-! ## blanks and markers that are added -/

theorem Trimmed.blanks_append (h : Trimmed text core) (hleft : ∀ c ∈ left, c ∈ blanks)
    (hright : ∀ c ∈ right, c ∈ blanks) : Trimmed (left ++ text ++ right) core := by
  obtain ⟨⟨left', right', rfl, hleft', hright'⟩, hhead, hlast⟩ := h
  refine ⟨⟨left ++ left', right' ++ right, by simp, ?_, ?_⟩, hhead, hlast⟩
  · simpa [or_imp, forall_and] using ⟨hleft, hleft'⟩
  · simpa [or_imp, forall_and] using ⟨hright', hright⟩

/-- A text that does not begin with a blank loses blanks only at its end. -/
theorem Trimmed.exists_right (h : Trimmed text core) (hhead : ∀ c ∈ text.head?, c ∉ blanks) :
    ∃ right, text = core ++ right ∧ ∀ c ∈ right, c ∈ blanks := by
  obtain ⟨⟨left, right, rfl, hleft, hright⟩, -, -⟩ := h
  cases left with
  | nil => exact ⟨right, rfl, hright⟩
  | cons c left => exact absurd (hleft c List.mem_cons_self) (hhead c rfl)

theorem Trimmed.marker_append (h : Trimmed text core) (hmarker : marker ∈ markers)
    (hhead : ∀ c ∈ text.head?, c ∉ blanks) : Trimmed (marker ++ text) (marker ++ core) := by
  obtain ⟨right, rfl, hright⟩ := h.exists_right hhead
  refine ⟨⟨[], right, by simp, by simp, hright⟩, fun c hc => ?_, fun c hc => ?_⟩
  · rw [List.head?_append, Option.mem_def, Option.or_eq_some_iff] at hc
    rcases hc with hc | hc
    · exact notMem_blanks_of_mem_marker hmarker (List.mem_of_mem_head? hc)
    · exact h.head c hc.2
  · rw [List.getLast?_append, Option.mem_def, Option.or_eq_some_iff] at hc
    rcases hc with hc | hc
    · exact h.last c hc
    · exact notMem_blanks_of_mem_marker hmarker (List.mem_of_mem_getLast? hc.2)

theorem unmarked_append (hmarker : marker ∈ markers) (hbare : Bare core) :
    Unmarked (marker ++ core) core := by
  simp only [markers, List.mem_cons, List.not_mem_nil, or_false] at hmarker
  rcases hmarker with rfl | rfl | rfl
  · exact .bare hbare
  · exact .lower core
  · exact .upper core

/-- Blanks around a text do not change what is read. -/
theorem parse_blanks_append (text : List UInt8) (hleft : ∀ c ∈ left, c ∈ blanks)
    (hright : ∀ c ∈ right, c ∈ blanks) : parse (left ++ text ++ right) = parse text := by
  obtain ⟨core, htrimmed, hunmarked⟩ := hasBody_iff.mpr (rfl : body text = body text)
  rw [parse_of_hasBody ⟨core, htrimmed.blanks_append hleft hright, hunmarked⟩, parse]

/-- A marker in front of a text that has none does not change what is read. -/
theorem parse_marker_append (hmarker : marker ∈ markers) (hbare : Bare text)
    (hhead : ∀ c ∈ text.head?, c ∉ blanks) : parse (marker ++ text) = parse text := by
  have htrimmed : Trimmed text (trim text) := trimmed_iff.mpr rfl
  obtain ⟨right, htext, -⟩ := htrimmed.exists_right hhead
  have hcore : trim text <+: text := ⟨right, htext.symm⟩
  have hbare' : Bare (trim text) :=
    ⟨fun h => hbare.1 (h.trans hcore), fun h => hbare.2 (h.trans hcore)⟩
  rw [parse_of_hasBody ⟨_, htrimmed.marker_append hmarker hhead, unmarked_append hmarker hbare'⟩,
    parse_of_hasBody ⟨_, htrimmed, .bare hbare'⟩]

/-! ## the first byte that is no digit -/

theorem digit?_eq_none_iff : digit? c = none ↔ ∀ value, ¬ HasValue c value := by
  constructor
  · intro h value hvalue
    simp [(digit?_of_hasValue hvalue).1] at h
  · intro h
    cases hc : digit? c with
    | none => rfl
    | some value => exact absurd (hasValue_of_digit? hc) (h _)

theorem not_firstInvalid_nil : ¬ FirstInvalid [] c position :=
  fun h => by simpa using h.here

/-- A first byte that is no digit is the one. -/
theorem firstInvalid_cons_of_none (hb : digit? b = none) :
    FirstInvalid (b :: digits) c position ↔ c = b ∧ position = 0 := by
  constructor
  · intro h
    cases position with
    | zero => simpa [eq_comm] using h.here
    | succ k =>
        obtain ⟨value, hvalue⟩ := h.before 0 (Nat.zero_lt_succ k) b rfl
        exact absurd hvalue (digit?_eq_none_iff.mp hb value)
  · rintro ⟨rfl, rfl⟩
    exact ⟨rfl, digit?_eq_none_iff.mp hb, by simp⟩

/-- Behind a digit, the first byte that is no digit is one place further. -/
theorem firstInvalid_cons_of_some {value : UInt8} (hb : digit? b = some value) :
    FirstInvalid (b :: digits) c position ↔ ∃ k, FirstInvalid digits c k ∧ position = k + 1 := by
  have hvalue := hasValue_of_digit? hb
  constructor
  · intro h
    cases position with
    | zero =>
        obtain rfl : b = c := by simpa using h.here
        exact absurd hvalue (h.invalid _)
    | succ k =>
        refine ⟨k, ⟨by simpa using h.here, h.invalid, fun j hj c' hc' => ?_⟩, rfl⟩
        exact h.before (j + 1) (Nat.succ_lt_succ hj) c' (by simpa using hc')
  · rintro ⟨k, h, rfl⟩
    refine ⟨by simpa using h.here, h.invalid, fun j hj c' hc' => ?_⟩
    cases j with
    | zero =>
        obtain rfl : b = c' := by simpa using hc'
        exact ⟨_, hvalue⟩
    | succ j => exact h.before j (Nat.lt_of_succ_lt_succ hj) c' (by simpa using hc')

/-! ## errors of pairs -/

/-- Pairs are read up to the first byte that is no digit, whichever half of a pair it is. -/
theorem readPairs_eq_error_iff (position : Nat) (acc digits : List UInt8)
    (heven : digits.length % 2 = 0) (error : HexError) :
    readPairs position acc digits = .error error ↔
      ∃ c k, FirstInvalid digits c k ∧ error = .invalidCharacter c (position + k) := by
  fun_induction readPairs position acc digits with
  | case1 position acc => simp [not_firstInvalid_nil]
  | case2 position acc c => simp at heven
  | case3 position acc high low rest hhigh => simp [firstInvalid_cons_of_none hhigh, eq_comm]
  | case4 position acc high low rest h hlow hhigh =>
      simp [firstInvalid_cons_of_some hhigh, firstInvalid_cons_of_none hlow, eq_comm]
  | case5 position acc high low rest h l hlow hhigh ih =>
      have hrest : rest.length % 2 = 0 := by
        simp only [List.length_cons] at heven
        omega
      have hnext : ∀ k, position + 2 + k = position + (k + 1 + 1) := by omega
      simp only [ih hrest, firstInvalid_cons_of_some hhigh, firstInvalid_cons_of_some hlow, hnext]
      grind

/-- An odd number of digits is an error whatever they are; otherwise the first byte that
is no digit is. -/
theorem readDigits_eq_error_iff {error : HexError} :
    readDigits digits = .error error ↔
      digits.length % 2 = 1 ∧ error = .oddLength ∨
        digits.length % 2 = 0 ∧
          ∃ c position, FirstInvalid digits c position ∧ error = .invalidCharacter c position := by
  unfold readDigits
  split
  · next heven => simp [readPairs_eq_error_iff _ _ _ heven, heven]
  · next hodd => simp [Nat.mod_two_ne_zero.mp hodd, eq_comm]

/-- Which error a text gives.  The text has one body, which is what remains without the
blanks around it and then without one marker.  The error is that the length of the body
is odd, if it is, and otherwise the first byte of the body that is no digit, with its
position there.  So blanks around a text do not change its error, and neither does a
marker in front of a text that begins with none and with no blank. -/
theorem parse_reports_first_error (text : List UInt8) :
    ∃ digits, (∀ digits', HasBody text digits' ↔ digits' = digits) ∧
      (parse text = .error .oddLength ↔ digits.length % 2 = 1) ∧
      (∀ c position, parse text = .error (.invalidCharacter c position) ↔
        digits.length % 2 = 0 ∧ FirstInvalid digits c position) ∧
      (∀ left right, (∀ c ∈ left, c ∈ blanks) → (∀ c ∈ right, c ∈ blanks) →
        parse (left ++ text ++ right) = parse text) ∧
      ∀ marker ∈ markers, Bare text → (∀ c ∈ text.head?, c ∉ blanks) →
        parse (marker ++ text) = parse text := by
  refine ⟨body text, fun digits' => hasBody_iff, ?_, fun c position => ?_,
    fun left right hleft hright => parse_blanks_append text hleft hright,
    fun marker hmarker hbare hhead => parse_marker_append hmarker hbare hhead⟩
  · rw [parse, readDigits_eq_error_iff]
    simp
  · rw [parse, readDigits_eq_error_iff]
    simp

/-- The third byte of `60zG` is the first that is no digit, also with blanks around the text
and with a marker in front of it. -/
theorem parse_reports_first_error_letters :
    (∀ c ∈ [0x09, 0x20], c ∈ blanks) ∧ (∀ c ∈ [0x0a], c ∈ blanks) ∧ Bare (ascii "60zG") ∧
      (∀ c ∈ (ascii "60zG").head?, c ∉ blanks) ∧
      parse (ascii "60zG") = .error (.invalidCharacter 0x7a 2) ∧
      parse ([0x09, 0x20] ++ ascii "60zG" ++ [0x0a]) = .error (.invalidCharacter 0x7a 2) ∧
      parse (ascii "0X" ++ ascii "60zG") = .error (.invalidCharacter 0x7a 2) := by
  have hleft : ∀ c ∈ [0x09, 0x20], c ∈ blanks := by simp [blanks]
  have hright : ∀ c ∈ [0x0a], c ∈ blanks := by simp [blanks]
  have hbare : Bare (ascii "60zG") := by decide
  have hhead : ∀ c ∈ (ascii "60zG").head?, c ∉ blanks :=
    fun c hc => Option.some.inj hc ▸ show 0x36 ∉ blanks by decide
  have hfirst : FirstInvalid (ascii "60zG") 0x7a 2 := by
    rw [show ascii "60zG" = [0x36, 0x30, 0x7a, 0x47] from rfl,
      firstInvalid_cons_of_some (show digit? 0x36 = some 6 from rfl)]
    refine ⟨1, ?_, rfl⟩
    rw [firstInvalid_cons_of_some (show digit? 0x30 = some 0 from rfl)]
    exact ⟨0, (firstInvalid_cons_of_none rfl).mpr ⟨rfl, rfl⟩, rfl⟩
  obtain ⟨digits, hbody, -, hinvalid, hblanks, hmarker⟩ := parse_reports_first_error (ascii "60zG")
  obtain rfl := (hbody (ascii "60zG")).mp (hasBody_iff.mpr rfl)
  have hparse := (hinvalid 0x7a 2).mpr ⟨rfl, hfirst⟩
  refine ⟨hleft, hright, hbare, hhead, hparse, ?_, ?_⟩
  · rw [hblanks _ _ hleft hright, hparse]
  · rw [hmarker (ascii "0X") (by decide) hbare hhead, hparse]

end EvmBlocks.HexInput
