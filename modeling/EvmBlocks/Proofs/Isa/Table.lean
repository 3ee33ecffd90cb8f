import EvmBlocks.Proofs.Isa.Definitions

/-!
# EvmBlocks.Proofs.Isa.Table

The table that is built from a description is the one that the description means.

A consistent description has a table (`exists_build_of_consistent`), and no other
has one.  The row of a byte renders the definition that the description makes of
it (`Table.Means`, `consistent_and_means_of_build`): the flags of the row are the
bits at the first positions of their names (`Definition.flagSet_eq_ok_iff`).
-/

namespace EvmBlocks.Isa

/-! ## flags as bits -/

namespace FlagSet

/-- The flag at position `i` is in the set: bit `i` of its byte is set. -/
def has (s : FlagSet) (i : Nat) : Bool := s.bits.toNat.testBit i

@[simp] theorem has_empty (i : Nat) : empty.has i = false := Nat.zero_testBit i

theorem has_single {i : Nat} (h : i < 8) (j : Nat) : (single i).has j = decide (i = j) := by
  have hbits : ∀ i < 8, (single i).bits.toNat = 2 ^ i := by decide
  rw [has, hbits i h, Nat.testBit_two_pow]

@[simp] theorem has_union (s t : FlagSet) (i : Nat) :
    (s.union t).has i = (s.has i || t.has i) := by
  simp [has, union, Nat.testBit_or]

theorem eq_of_has_iff {s t : FlagSet} (h : ∀ i, s.has i = true ↔ t.has i = true) : s = t := by
  have hbits : s.bits = t.bits :=
    UInt8.toNat_inj.mp (Nat.eq_of_testBit_eq fun i => Bool.eq_iff_iff.mpr (h i))
  cases s
  cases t
  exact congrArg mk hbits

end FlagSet

namespace Definition

variable {declared : List String} {x : Definition}

/-- Adds the flag with this name to a set. -/
def addFlag (declared : List String) (x : Definition) (set : FlagSet) (name : String) :
    Except TableFault FlagSet :=
  match declared.idxOf? name with
  | some i => .ok (set.union (.single i))
  | none => .error (.unknownFlag x.mnemonic name)

theorem flagSet_eq_foldlM (declared : List String) (x : Definition) :
    x.flagSet declared = x.flags.foldlM (x.addFlag declared) .empty := rfl

/-- Names are added to a set if all of them are declared, and then the set has the
positions of the names besides what it had. -/
theorem foldlM_addFlag_eq_ok_iff (hlen : declared.length ≤ 8) {names : List String}
    {start set : FlagSet} :
    names.foldlM (x.addFlag declared) start = .ok set ↔
      (∀ name ∈ names, name ∈ declared) ∧
        ∀ i, set.has i = true ↔
          start.has i = true ∨ ∃ name ∈ names, declared.idxOf? name = some i := by
  -- `start` holds the flags of the names in front, so it changes along the list.
  induction names generalizing start with
  | nil =>
      simp only [List.foldlM_nil, List.not_mem_nil, false_implies, implies_true, true_and,
        false_and, exists_false, or_false]
      constructor
      · intro h i
        rw [Except.ok.inj h]
      · intro h
        exact congrArg Except.ok (FlagSet.eq_of_has_iff h).symm
  | cons name names ih =>
      rw [List.foldlM_cons, addFlag]
      cases hname : declared.idxOf? name with
      | none =>
          have hnot : name ∉ declared := List.idxOf?_eq_none_iff.mp hname
          simp [hnot, bind, Except.bind]
      | some j =>
          obtain ⟨hj, hmem, -⟩ := List.idxOf?_eq_some_iff.mp hname
          have hdeclared : name ∈ declared := hmem ▸ List.getElem_mem hj
          have hsingle := FlagSet.has_single (Nat.lt_of_lt_of_le hj hlen)
          simp only [bind, Except.bind, ih, FlagSet.has_union, hsingle, List.forall_mem_cons,
            hdeclared, true_and, List.exists_mem_cons_iff, hname, Option.some.injEq,
            Bool.or_eq_true, decide_eq_true_eq, or_assoc]

/-- The flags of a definition have a set if all of them are declared, and it is the
set of their first positions. -/
theorem flagSet_eq_ok_iff (hlen : declared.length ≤ 8) {set : FlagSet} :
    x.flagSet declared = .ok set ↔
      (∀ name ∈ x.flags, name ∈ declared) ∧
        ∀ i, set.has i = true ↔ ∃ name ∈ x.flags, declared.idxOf? name = some i := by
  rw [flagSet_eq_foldlM, foldlM_addFlag_eq_ok_iff hlen]
  simp

theorem exists_foldlM_addFlag {names : List String} (h : ∀ name ∈ names, name ∈ declared)
    (start : FlagSet) : ∃ set, names.foldlM (x.addFlag declared) start = .ok set := by
  induction names generalizing start with
  | nil => exact ⟨start, rfl⟩
  | cons name names ih =>
      obtain ⟨hname, hrest⟩ := List.forall_mem_cons.mp h
      obtain ⟨i, hi⟩ := Option.isSome_iff_exists.mp (List.isSome_idxOf?.mpr hname)
      obtain ⟨set, hset⟩ := ih hrest (start.union (.single i))
      refine ⟨set, ?_⟩
      rw [List.foldlM_cons, addFlag, hi]
      exact hset

end Definition

/-! ## rows -/

/-- A row says what a definition says, with the flags as bits: a bit is set if a
flag is named whose first position among the declared ones is that of the bit. -/
structure Row.Renders (r : Row) (declared : List String) (x : Definition) : Prop where
  opcode : r.opcode = x.opcode
  mnemonic : r.mnemonic = x.mnemonic
  immediateSize : r.immediateSize = x.immediateSize
  flags : ∀ i, r.flags.has i = true ↔ ∃ name ∈ x.flags, declared.idxOf? name = some i

section Rows

variable {declared : List String} {x : Definition} {known : Definitions} {opcode : UInt8}

theorem Definition.row_eq_ok_iff (hlen : declared.length ≤ 8) {r : Row} :
    x.row declared = .ok r ↔ (∀ name ∈ x.flags, name ∈ declared) ∧ r.Renders declared x := by
  have hset : x.row declared = .ok r ↔ x.flagSet declared = .ok r.flags ∧
      r.opcode = x.opcode ∧ r.mnemonic = x.mnemonic ∧ r.immediateSize = x.immediateSize := by
    rw [row]
    cases x.flagSet declared <;> cases r <;> grind
  rw [hset, flagSet_eq_ok_iff hlen]
  constructor
  · rintro ⟨⟨hdeclared, hflags⟩, hopcode, hmnemonic, hsize⟩
    exact ⟨hdeclared, hopcode, hmnemonic, hsize, hflags⟩
  · rintro ⟨hdeclared, hopcode, hmnemonic, hsize, hflags⟩
    exact ⟨⟨hdeclared, hflags⟩, hopcode, hmnemonic, hsize⟩

theorem Definition.exists_row (h : ∀ name ∈ x.flags, name ∈ declared) :
    ∃ r, x.row declared = .ok r := by
  obtain ⟨set, hset⟩ := exists_foldlM_addFlag h FlagSet.empty
  rw [← flagSet_eq_foldlM] at hset
  exact ⟨_, by rw [row, hset]⟩

theorem rowAt_eq_ok_iff {row : Option Row} :
    rowAt declared known opcode = .ok row ↔
      known[opcode]? = none ∧ row = none ∨
        ∃ x r, known[opcode]? = some x ∧ x.row declared = .ok r ∧ row = some r := by
  rw [rowAt]
  cases known[opcode]? with
  | none => simp [eq_comm]
  | some x => cases hrow : x.row declared <;> simp [Except.map, hrow, eq_comm]

/-- A byte has its row exactly if the flags of its definition are declared. -/
theorem exists_rowAt_iff (hlen : declared.length ≤ 8) :
    (∃ row, rowAt declared known opcode = .ok row) ↔
      ∀ x, known[opcode]? = some x → ∀ name ∈ x.flags, name ∈ declared := by
  simp only [rowAt_eq_ok_iff]
  constructor
  · rintro ⟨_, ⟨hnone, -⟩ | ⟨x, r, hx, hr, -⟩⟩ y hy
    · simp [hnone] at hy
    · obtain rfl : x = y := Option.some.inj (hx.symm.trans hy)
      exact ((Definition.row_eq_ok_iff hlen).mp hr).1
  · intro h
    cases hx : known[opcode]? with
    | none => exact ⟨none, .inl ⟨rfl, rfl⟩⟩
    | some x =>
        obtain ⟨r, hr⟩ := Definition.exists_row (h x hx)
        exact ⟨some r, .inr ⟨x, r, rfl, hr, rfl⟩⟩

end Rows

/-- Results are collected if there is one for each element. -/
theorem mapM_eq_ok_iff {α β ε : Type} {f : α → Except ε β} {xs : List α} {ys : List β} :
    xs.mapM f = .ok ys ↔ xs.map f = ys.map .ok := by
  induction xs generalizing ys with
  | nil => simp [pure, Except.pure, eq_comm]
  | cons x xs ih =>
      rw [List.mapM_cons]
      cases ys with
      | nil => cases f x <;> cases xs.mapM f <;> simp [bind, Except.bind, pure, Except.pure]
      | cons y ys =>
          rw [List.map_cons, List.map_cons, List.cons.injEq, ← ih]
          cases f x <;> cases xs.mapM f <;> simp [bind, Except.bind, pure, Except.pure]

/-! ## tables -/

theorem getElem?_opcodeBytes (b : UInt8) : opcodeBytes[b.toNat]? = some b := by
  simp [opcodeBytes, b.toNat_lt]

theorem pairwise_opcodeBytes : opcodeBytes.Pairwise (· < ·) := by
  refine List.pairwise_map.mpr (List.pairwise_lt_range.imp_of_mem ?_)
  intro a b ha hb hlt
  rw [UInt8.lt_iff_toNat_lt, UInt8.toNat_ofNat_of_lt' (List.mem_range.mp ha),
    UInt8.toNat_ofNat_of_lt' (List.mem_range.mp hb)]
  exact hlt

/-- A table says what a description means: it has a row for each of the 256 bytes,
which renders the definition of the byte if there is one and is empty if not. -/
structure Table.Means (t : Table) (d : Description) : Prop where
  flagNames : t.flagNames = d.flags
  size_rows : t.rows.size = 256
  undefined : ∀ b : UInt8, (∀ x, d.Defines x → x.opcode ≠ b) → t.row? b = none
  defined : ∀ x, d.Defines x → ∃ r, t.row? x.opcode = some r ∧ r.Renders d.flags x

namespace Table

variable {d : Description} {t : Table}

theorem getElem?_rows (h : t.rows.size = 256) (b : UInt8) :
    t.rows[b.toNat]? = some (t.row? b) := by
  have hlt : b.toNat < t.rows.size := h ▸ b.toNat_lt
  simp [row?, hlt]

theorem toList_rows (h : t.rows.size = 256) : t.rows.toList = opcodeBytes.map t.row? := by
  apply List.ext_getElem?
  intro i
  by_cases hi : i < 256
  · have hbyte := getElem?_rows h (UInt8.ofNat i)
    rw [UInt8.toNat_ofNat_of_lt' hi] at hbyte
    simp [opcodeBytes, hi, hbyte]
  · simp [opcodeBytes, h, Nat.le_of_not_lt hi]

theorem named_eq (h : t.rows.size = 256) : t.named = opcodeBytes.filterMap t.row? := by
  rw [named, toList_rows h, List.filterMap_map]
  rfl

/-- A table is built if the flags fit a byte, the definitions are gathered, and each
byte has its row. -/
theorem build_eq_ok_iff :
    build d = .ok t ↔ d.flags.length ≤ 8 ∧ ∃ known, gather ∅ d.members = .ok known ∧
      t.flagNames = d.flags ∧
      opcodeBytes.map (rowAt d.flags known) = t.rows.toList.map .ok := by
  rw [build]
  by_cases hlen : 8 < d.flags.length
  · simp [hlen, Nat.not_le_of_lt hlen]
  · simp only [hlen, if_false, Nat.le_of_not_lt hlen, true_and]
    cases gather ∅ d.members with
    | error fault => simp
    | ok known =>
        simp only [Except.ok.injEq, exists_eq_left', ← mapM_eq_ok_iff]
        cases opcodeBytes.mapM (rowAt d.flags known) with
        | error fault => simp
        | ok rows =>
            obtain ⟨names, array⟩ := t
            simp only [Except.ok.injEq, mk.injEq, ← Array.toList_inj]
            exact and_congr eq_comm Iff.rfl

/-- The rows of a table, by the definitions that were gathered for it. -/
theorem rowAt_eq_ok_row? {known : Definitions} (h : t.rows.size = 256)
    (hrows : opcodeBytes.map (rowAt d.flags known) = t.rows.toList.map .ok) (b : UInt8) :
    rowAt d.flags known b = .ok (t.row? b) := by
  have hb := congrArg (·[b.toNat]?) hrows
  simpa [getElem?_opcodeBytes, getElem?_rows h] using hb

/-- A table that is built comes from a consistent description, and means what it
says. -/
theorem consistent_and_means_of_build (h : build d = .ok t) : d.Consistent ∧ t.Means d := by
  obtain ⟨hlen, known, hknown, hnames, hrows⟩ := build_eq_ok_iff.mp h
  obtain ⟨ds, hmembers, hnodup, -⟩ := exists_gather_eq_ok_iff.mp ⟨known, hknown⟩
  obtain ⟨hrange, rfl⟩ := Description.members_eq_map_ok_iff.mp hmembers
  rw [hmembers] at hknown
  -- What is gathered under a byte is what the description says about it, so a row
  -- that was made from it is a row of a definition.
  have hfound : ∀ b x, known[b]? = some x ↔ d.Defines x ∧ x.opcode = b := by
    intro b x
    rw [getElem?_gather_empty hknown, Description.mem_definitions_iff hrange]
  have hsize : t.rows.size = 256 := by
    have hlength := congrArg List.length hrows
    simpa [opcodeBytes, eq_comm] using hlength
  have hrow := rowAt_eq_ok_row? hsize hrows
  have hdefined : ∀ x, d.Defines x →
      ∃ r, t.row? x.opcode = some r ∧ x.row d.flags = .ok r := by
    intro x hx
    have hxfound := (hfound x.opcode x).mpr ⟨hx, rfl⟩
    have hxrow := hrow x.opcode
    rw [rowAt_eq_ok_iff, hxfound] at hxrow
    simpa [and_comm] using hxrow
  constructor
  · refine Description.consistent_iff.mpr ⟨hlen, hrange, hnodup, fun x hx => ?_⟩
    obtain ⟨r, -, hr⟩ := hdefined x ((Description.mem_definitions_iff hrange).mp hx)
    exact ((Definition.row_eq_ok_iff hlen).mp hr).1
  · refine ⟨hnames, hsize, fun b hb => ?_, fun x hx => ?_⟩
    · rcases rowAt_eq_ok_iff.mp (hrow b) with ⟨-, hnone⟩ | ⟨x, r, hx, -⟩
      · exact hnone
      · obtain ⟨hdefines, hopcode⟩ := (hfound b x).mp hx
        exact absurd hopcode (hb x hdefines)
    · obtain ⟨r, hr, hxrow⟩ := hdefined x hx
      exact ⟨r, hr, ((Definition.row_eq_ok_iff hlen).mp hxrow).2⟩

/-- A consistent description has a table. -/
theorem exists_build_of_consistent (h : d.Consistent) : ∃ t, build d = .ok t := by
  obtain ⟨hlen, hrange, hnodup, hflags⟩ := Description.consistent_iff.mp h
  have hmembers := Description.members_eq_map_ok_iff.mpr ⟨hrange, rfl⟩
  obtain ⟨known, hknown⟩ : ∃ known, gather ∅ d.members = .ok known :=
    exists_gather_eq_ok_iff.mpr ⟨_, hmembers, hnodup, by simp⟩
  have hrows : ∀ b, ∃ row, rowAt d.flags known b = .ok row := by
    intro b
    rw [exists_rowAt_iff hlen]
    intro x hb
    rw [hmembers] at hknown
    exact hflags x ((getElem?_gather_empty hknown).mp hb).1
  choose row hrow using hrows
  refine ⟨⟨d.flags, (opcodeBytes.map row).toArray⟩, ?_⟩
  exact build_eq_ok_iff.mpr ⟨hlen, known, hknown, rfl, by simp [hrow]⟩

/-! ## the rows of defined bytes -/

namespace Means

/-- A row belongs to a definition of its byte. -/
theorem exists_of_row? (h : t.Means d) {b : UInt8} {r : Row} (hr : t.row? b = some r) :
    ∃ x, d.Defines x ∧ x.opcode = b ∧ r.Renders d.flags x := by
  by_cases hdefined : ∃ x, d.Defines x ∧ x.opcode = b
  · obtain ⟨x, hx, rfl⟩ := hdefined
    obtain ⟨r', hr', hrenders⟩ := h.defined x hx
    obtain rfl : r = r' := Option.some.inj (hr.symm.trans hr')
    exact ⟨x, hx, rfl, hrenders⟩
  · have hnone := h.undefined b fun x hx hopcode => hdefined ⟨x, hx, hopcode⟩
    exact absurd hr (by simp [hnone])

theorem opcode_of_row? (h : t.Means d) {b : UInt8} {r : Row} (hr : t.row? b = some r) :
    r.opcode = b := by
  obtain ⟨x, -, hopcode, hrenders⟩ := h.exists_of_row? hr
  rw [hrenders.opcode, hopcode]

theorem mem_named_iff (h : t.Means d) {r : Row} : r ∈ t.named ↔ t.row? r.opcode = some r := by
  rw [named_eq h.size_rows, List.mem_filterMap]
  constructor
  · rintro ⟨b, -, hr⟩
    rwa [h.opcode_of_row? hr]
  · intro hr
    exact ⟨r.opcode, List.mem_of_getElem? (getElem?_opcodeBytes r.opcode), hr⟩

theorem pairwise_named (h : t.Means d) : t.named.Pairwise (fun r r' => r.opcode < r'.opcode) := by
  rw [named_eq h.size_rows]
  refine pairwise_opcodeBytes.filterMap _ ?_
  intro b b' hlt r hr r' hr'
  rwa [h.opcode_of_row? hr, h.opcode_of_row? hr']

end Means

end Table

end EvmBlocks.Isa
