import EvmBlocks.Proofs.Isa.Table

/-!
# EvmBlocks.Proofs.Isa.Faults

Which fault is reported of a description that has several.

A description asks for its items in an order: its entries, then the members of its families.
An item that is in range makes a definition (`Item.Makes`).  Whether an item is faulty depends
on the item and on those before it (`Item.Fault`), and the first faulty item decides
(`gather_items_eq_error_iff`).  Flags are looked up only when all items are sound, from the
lowest opcode to the highest, and the first name that is not declared decides
(`rows_eq_error_iff`).  `Description.FirstFault` says this without reference to how a table is
built, and `build_reports_first_fault` that a table is missing for this reason and no other,
and in which words this is reported.
-/

namespace EvmBlocks.Isa

/-! ## the order of faults -/

/-- What a description asks to be defined: an entry, or the member of a family at an index. -/
inductive Item where
  | entry (e : Entry)
  | member (f : Family) (index : Nat)

namespace Item

/-- An item makes a definition: an entry as it says, and a member, if its byte and its ordinal
exist, with the ordinal in the place of every placeholder of its template. -/
inductive Makes : Item → Definition → Prop where
  | entry (e : Entry) : Makes (.entry e) ⟨e.opcode, e.mnemonic, 0, e.flags⟩
  | member {f : Family} {index : Nat} {x : Definition}
      (hopcode : x.opcode.toNat = f.first.toNat + index)
      (hordinal : f.ordinalBase.toNat + index ≤ 255)
      (hmnemonic : Template.Fills f.template.toList
        (toString (f.ordinalBase.toNat + index)).toList x.mnemonic.toList)
      (hsize : x.immediateSize =
        if f.immediate = .ordinal then f.ordinalBase.toNat + index else 0)
      (hflags : x.flags = f.flags) : Makes (.member f index) x

/-- An item that comes after others is faulty: its byte does not exist, its byte does but its
ordinal does not, or both do and one of the others has its byte. -/
inductive Fault (before : List Item) : Item → TableFault → Prop where
  | byte {f : Family} {index : Nat} (h : 255 < f.first.toNat + index) :
      Fault before (.member f index) (.familyOverflow f.template)
  | ordinal {f : Family} {index : Nat} (hbyte : f.first.toNat + index ≤ 255)
      (h : 255 < f.ordinalBase.toNat + index) :
      Fault before (.member f index) (.ordinalOverflow .addOverflow)
  | redefined {item earlier : Item} {x y : Definition} (hx : item.Makes x)
      (hearlier : earlier ∈ before) (hy : earlier.Makes y) (h : y.opcode = x.opcode) :
      Fault before item (.redefined x.opcode y.mnemonic x.mnemonic)

/-- No item is faulty after those in front of it. -/
def Sound (items : List Item) : Prop :=
  ∀ before item after, items = before ++ item :: after → ∀ fault, ¬ item.Fault before fault

end Item

/-- The first of the flags of a definition that is not declared. -/
def Definition.FirstUnknown (declared : List String) (x : Definition) (name : String) : Prop :=
  ∃ names rest, x.flags = names ++ name :: rest ∧ (∀ name' ∈ names, name' ∈ declared) ∧
    name ∉ declared

namespace Description

/-- What a description asks for, in its order: the entries, then the members of the families. -/
def items (d : Description) : List Item :=
  d.entries.map .entry ++
    d.families.flatMap fun f => (List.range f.count.toNat).map (Item.member f)

/-- The fault of a description that comes first: that it declares too many flags, else the fault
of its first faulty item, else the first undeclared flag of the item with the lowest opcode that
has one. -/
inductive FirstFault (d : Description) : TableFault → Prop where
  | tooManyFlags (h : 8 < d.flags.length) : d.FirstFault (.tooManyFlags d.flags.length)
  | item {before after : List Item} {item : Item} {fault : TableFault}
      (hlen : d.flags.length ≤ 8) (hitems : d.items = before ++ item :: after)
      (hbefore : Item.Sound before) (hfault : item.Fault before fault) : d.FirstFault fault
  | unknownFlag {item : Item} {x : Definition} {name : String} (hlen : d.flags.length ≤ 8)
      (hsound : Item.Sound d.items) (hitem : item ∈ d.items) (hx : item.Makes x)
      (hname : x.FirstUnknown d.flags name)
      (hlower : ∀ item' ∈ d.items, ∀ y, item'.Makes y → y.opcode < x.opcode →
        ∀ name' ∈ y.flags, name' ∈ d.flags) :
      d.FirstFault (.unknownFlag x.mnemonic name)

end Description

/-- How a fault is worded.  The only arithmetic in a description is addition. -/
def TableFault.wording : TableFault → String
  | .tooManyFlags count => "OpcodeFlags is a u8; " ++ toString count ++ " flags declared"
  | .familyOverflow template => "range " ++ template ++ " overflows a byte"
  | .ordinalOverflow _ => "attempt to add with overflow"
  | .redefined opcode earlier later =>
      "opcode " ++ Numeral.hexText 2 opcode.toNat ++ " defined twice (" ++ earlier ++ " and " ++
        later ++ ")"
  | .unknownFlag mnemonic flag => mnemonic ++ ": unknown flag '" ++ flag ++ "'"

/-! ## the first failure of a run -/

section Runs

variable {α β σ ε : Type} {xs : List α} {e : ε}

/-- A run fails where a step fails after steps that do not. -/
theorem foldlM_eq_error_iff {step : σ → α → Except ε σ} {s : σ} :
    xs.foldlM step s = .error e ↔
      ∃ before x after s', xs = before ++ x :: after ∧ before.foldlM step s = .ok s' ∧
        step s' x = .error e := by
  constructor
  · intro h
    induction xs generalizing s with
    | nil => simp [pure, Except.pure] at h
    | cons x xs ih =>
        rw [List.foldlM_cons] at h
        cases hx : step s x with
        | error e' =>
            obtain rfl : e' = e := by simpa [hx, bind, Except.bind] using h
            exact ⟨[], x, xs, s, rfl, rfl, hx⟩
        | ok s₁ =>
            obtain ⟨before, y, after, s', rfl, hbefore, hy⟩ :=
              ih (by simpa [hx, bind, Except.bind] using h)
            have hcons : (x :: before).foldlM step s = .ok s' := by
              simpa [hx, bind, Except.bind] using hbefore
            exact ⟨x :: before, y, after, s', rfl, hcons, hy⟩
  · rintro ⟨before, x, after, s', rfl, hbefore, hx⟩
    simp [List.foldlM_append, hbefore, hx, bind, Except.bind]

/-- Results are not collected if an element has none, after elements that have one. -/
theorem mapM_eq_error_iff {f : α → Except ε β} :
    xs.mapM f = .error e ↔
      ∃ before x after, xs = before ++ x :: after ∧ (∀ y ∈ before, ∃ v, f y = .ok v) ∧
        f x = .error e := by
  constructor
  · intro h
    induction xs with
    | nil => simp [pure, Except.pure] at h
    | cons x xs ih =>
        rw [List.mapM_cons] at h
        cases hx : f x with
        | error e' =>
            obtain rfl : e' = e := by simpa [hx, bind, Except.bind] using h
            exact ⟨[], x, xs, rfl, by simp, hx⟩
        | ok v =>
            have hxs : xs.mapM f = .error e := by
              cases hxs : xs.mapM f <;> simp_all [bind, Except.bind, pure, Except.pure]
            obtain ⟨before, y, after, rfl, hbefore, hy⟩ := ih hxs
            exact ⟨x :: before, y, after, rfl, by simpa [hx] using hbefore, hy⟩
  · rintro ⟨before, x, after, rfl, hbefore, hx⟩
    induction before with
    | nil => simp [List.mapM_cons, hx, bind, Except.bind]
    | cons y before ih =>
        obtain ⟨⟨v, hv⟩, hbefore⟩ := List.forall_mem_cons.mp hbefore
        rw [List.cons_append, List.mapM_cons, hv, ih hbefore]
        rfl

end Runs

/-! ## faults of items -/

theorem Family.member_eq_error_iff {f : Family} {index : Nat} {fault : TableFault} :
    f.member index = .error fault ↔
      maxByte < f.first.toNat + index ∧ fault = .familyOverflow f.template ∨
        f.first.toNat + index ≤ maxByte ∧ maxByte < f.ordinalBase.toNat + index ∧
          fault = .ordinalOverflow .addOverflow := by
  unfold member
  by_cases hbyte : f.first.toNat + index ≤ maxByte
  · rw [Checked.add_of_le hbyte]
    by_cases hordinal : f.ordinalBase.toNat + index ≤ maxByte
    · simp [Checked.add_of_le hordinal, Nat.not_lt.mpr hbyte, Nat.not_lt.mpr hordinal]
    · simp [Checked.add_of_lt (Nat.lt_of_not_le hordinal), hbyte, Nat.lt_of_not_le hordinal,
        Nat.not_lt.mpr hbyte, eq_comm]
  · simp [Checked.add_of_lt (Nat.lt_of_not_le hbyte), hbyte, Nat.lt_of_not_le hbyte, eq_comm]

namespace Item

variable {item : Item} {before items : List Item} {x : Definition} {fault : TableFault}

/-- What the table is built from: the definition of an item, or why it has none. -/
def result : Item → Except TableFault Definition
  | entry e => .ok e.definition
  | member f index => f.member index

theorem result_eq_ok_iff : item.result = .ok x ↔ item.Makes x := by
  cases item with
  | entry e =>
      rw [result, Except.ok.injEq]
      constructor
      · rintro rfl
        exact .entry e
      · rintro ⟨⟩
        rfl
  | member f index =>
      rw [result, Family.member_eq_ok_iff]
      constructor
      · rintro ⟨⟨hbyte, hordinal⟩, hx⟩
        obtain ⟨hopcode, hmnemonic, hsize, hflags⟩ := (f.eq_definition_iff hbyte).mp hx
        exact .member hopcode hordinal hmnemonic hsize hflags
      · rintro (_ | ⟨hopcode, hordinal, hmnemonic, hsize, hflags⟩)
        have hbyte : f.first.toNat + index ≤ maxByte :=
          hopcode ▸ Nat.le_of_lt_succ x.opcode.toNat_lt
        exact ⟨⟨hbyte, hordinal⟩,
          (f.eq_definition_iff hbyte).mpr ⟨hopcode, hmnemonic, hsize, hflags⟩⟩

/-- An item is faulty by itself, or because its byte is defined before. -/
theorem fault_iff : item.Fault before fault ↔
    item.result = .error fault ∨ ∃ x y, item.result = .ok x ∧
      (∃ earlier ∈ before, earlier.Makes y ∧ y.opcode = x.opcode) ∧
        fault = .redefined x.opcode y.mnemonic x.mnemonic := by
  constructor
  · intro h
    cases h with
    | byte h => exact .inl (Family.member_eq_error_iff.mpr (.inl ⟨h, rfl⟩))
    | ordinal hbyte h => exact .inl (Family.member_eq_error_iff.mpr (.inr ⟨hbyte, h, rfl⟩))
    | redefined hx hearlier hy h =>
        exact .inr ⟨_, _, result_eq_ok_iff.mpr hx, ⟨_, hearlier, hy, h⟩, rfl⟩
  · rintro (h | ⟨x, y, hx, ⟨earlier, hearlier, hy, h⟩, rfl⟩)
    · cases item with
      | entry e => simp [result] at h
      | member f index =>
          obtain ⟨hover, rfl⟩ | ⟨hbyte, hover, rfl⟩ := Family.member_eq_error_iff.mp h
          · exact .byte hover
          · exact .ordinal hbyte hover
    · exact .redefined (result_eq_ok_iff.mp hx) hearlier hy h

end Item

theorem Description.members_eq_map_result (d : Description) :
    d.members = d.items.map Item.result := by
  simp only [members, items, List.map_append, List.map_flatMap, List.map_map]
  rfl

/-! ## gathering items -/

section Gather

variable {known : Definitions} {before items : List Item} {fault : TableFault}

/-- Adds the definition of one item to the known ones. -/
def gatherStep (known : Definitions) (item : Item) : Except TableFault Definitions :=
  gather known [item.result]

/-- Items are gathered one after another. -/
theorem gather_items_eq_foldlM :
    gather known (items.map Item.result) = items.foldlM gatherStep known := by
  induction items generalizing known with
  | nil => rfl
  | cons item items ih =>
      rw [List.map_cons, List.foldlM_cons, gatherStep]
      cases item.result with
      | error fault => rfl
      | ok x => cases hx : known[x.opcode]? <;> simp [gather, hx, ih, bind, Except.bind]

/-- The definitions that gathered items make are what is known. -/
theorem getElem?_gather_items (h : gather ∅ (before.map Item.result) = .ok known) {byte : UInt8}
    {x : Definition} :
    known[byte]? = some x ↔ ∃ item ∈ before, item.Makes x ∧ x.opcode = byte := by
  obtain ⟨ds, hds, -, -⟩ := exists_gather_eq_ok_iff.mp ⟨known, h⟩
  have hmem : x ∈ ds ↔ ∃ item ∈ before, item.Makes x := by
    calc x ∈ ds ↔ .ok x ∈ ds.map (.ok : Definition → Except TableFault Definition) := by simp
      _ ↔ .ok x ∈ before.map Item.result := by rw [hds]
      _ ↔ ∃ item ∈ before, item.Makes x := by simp only [List.mem_map, Item.result_eq_ok_iff]
  rw [hds] at h
  rw [getElem?_gather_empty h, hmem]
  grind

/-- **One step**: an item is not gathered if it makes no definition, or if its byte is known. -/
theorem gatherStep_eq_error_iff {item : Item} :
    gatherStep known item = .error fault ↔
      item.result = .error fault ∨ ∃ x y, item.result = .ok x ∧ known[x.opcode]? = some y ∧
        fault = .redefined x.opcode y.mnemonic x.mnemonic := by
  rw [gatherStep]
  cases item.result with
  | error fault' => simp [gather]
  | ok x => cases hearlier : known[x.opcode]? <;> simp [gather, hearlier, eq_comm]

/-- Behind gathered items, an item is not gathered exactly if it is faulty. -/
theorem gatherStep_eq_error_iff_fault (h : gather ∅ (before.map Item.result) = .ok known)
    {item : Item} : gatherStep known item = .error fault ↔ item.Fault before fault := by
  rw [Item.fault_iff, gatherStep_eq_error_iff]
  simp only [getElem?_gather_items h]

/-- Items are gathered up to the first that is faulty. -/
theorem gather_items_eq_error_iff_split :
    gather ∅ (items.map Item.result) = .error fault ↔
      ∃ before item after, items = before ++ item :: after ∧
        (∃ known, gather ∅ (before.map Item.result) = .ok known) ∧ item.Fault before fault := by
  rw [gather_items_eq_foldlM, foldlM_eq_error_iff]
  constructor
  · rintro ⟨before, item, after, known, hitems, hbefore, hitem⟩
    rw [← gather_items_eq_foldlM] at hbefore
    have hfault := (gatherStep_eq_error_iff_fault hbefore).mp hitem
    exact ⟨before, item, after, hitems, ⟨known, hbefore⟩, hfault⟩
  · rintro ⟨before, item, after, hitems, ⟨known, hbefore⟩, hfault⟩
    have hitem := (gatherStep_eq_error_iff_fault hbefore).mpr hfault
    rw [gather_items_eq_foldlM] at hbefore
    exact ⟨before, item, after, known, hitems, hbefore, hitem⟩

/-- **A whole run**: all items are gathered exactly if none is faulty. -/
theorem Item.sound_iff :
    Item.Sound items ↔ ∃ known, gather ∅ (items.map Item.result) = .ok known := by
  constructor
  · intro hsound
    cases h : gather ∅ (items.map Item.result) with
    | ok known => exact ⟨known, rfl⟩
    | error fault =>
        obtain ⟨before, item, after, hitems, -, hfault⟩ := gather_items_eq_error_iff_split.mp h
        exact absurd hfault (hsound before item after hitems fault)
  · rintro ⟨known, hknown⟩ before item after rfl fault hfault
    cases hbefore : gather ∅ (before.map Item.result) with
    | ok known' =>
        have herror : gather ∅ ((before ++ item :: after).map Item.result) = .error fault :=
          gather_items_eq_error_iff_split.mpr
            ⟨before, item, after, rfl, ⟨known', hbefore⟩, hfault⟩
        cases hknown.symm.trans herror
    | error fault' =>
        -- A run that fails in front of the item does not get to the end.
        rw [gather_items_eq_foldlM] at hbefore hknown
        simp [List.foldlM_append, hbefore, bind, Except.bind] at hknown

/-- The first faulty item decides. -/
theorem gather_items_eq_error_iff :
    gather ∅ (items.map Item.result) = .error fault ↔
      ∃ before item after, items = before ++ item :: after ∧ Item.Sound before ∧
        item.Fault before fault := by
  simp only [gather_items_eq_error_iff_split, Item.sound_iff]

end Gather

/-! ## unknown flags -/

section Flags

variable {declared : List String} {x : Definition} {known : Definitions} {b : UInt8}
  {fault : TableFault}

namespace Definition

theorem addFlag_eq_error_iff {set : FlagSet} {name : String} :
    x.addFlag declared set name = .error fault ↔
      name ∉ declared ∧ fault = .unknownFlag x.mnemonic name := by
  rw [addFlag, ← List.idxOf?_eq_none_iff]
  cases declared.idxOf? name <;> simp [eq_comm]

/-- Flags are looked up to the first that is not declared. -/
theorem flagSet_eq_error_iff (hlen : declared.length ≤ 8) :
    x.flagSet declared = .error fault ↔
      ∃ name, x.FirstUnknown declared name ∧ fault = .unknownFlag x.mnemonic name := by
  rw [flagSet_eq_foldlM, foldlM_eq_error_iff]
  constructor
  · rintro ⟨names, name, rest, set, hflags, hnames, hname⟩
    obtain ⟨hunknown, hfault⟩ := addFlag_eq_error_iff.mp hname
    have hdeclared := ((foldlM_addFlag_eq_ok_iff hlen).mp hnames).1
    exact ⟨name, ⟨names, rest, hflags, hdeclared, hunknown⟩, hfault⟩
  · rintro ⟨name, ⟨names, rest, hflags, hdeclared, hunknown⟩, hfault⟩
    obtain ⟨set, hset⟩ := exists_foldlM_addFlag hdeclared FlagSet.empty
    exact ⟨names, name, rest, set, hflags, hset, addFlag_eq_error_iff.mpr ⟨hunknown, hfault⟩⟩

theorem row_eq_error_iff (hlen : declared.length ≤ 8) :
    x.row declared = .error fault ↔
      ∃ name, x.FirstUnknown declared name ∧ fault = .unknownFlag x.mnemonic name := by
  rw [← flagSet_eq_error_iff hlen, row]
  cases x.flagSet declared <;> simp

end Definition

theorem rowAt_eq_error_iff :
    rowAt declared known b = .error fault ↔
      ∃ x, known[b]? = some x ∧ x.row declared = .error fault := by
  rw [rowAt]
  cases known[b]? with
  | none => simp
  | some x => cases hrow : x.row declared <;> simp [Except.map, hrow]

/-- In front of an opcode byte are those below it. -/
theorem mem_front_opcodeBytes_iff {front back : List UInt8}
    (h : opcodeBytes = front ++ b :: back) {b' : UInt8} : b' ∈ front ↔ b' < b := by
  have hsorted := pairwise_opcodeBytes
  have hmem : b' ∈ opcodeBytes := List.mem_of_getElem? (getElem?_opcodeBytes b')
  rw [h] at hsorted hmem
  obtain ⟨-, hback, hfront⟩ := List.pairwise_append.mp hsorted
  constructor
  · intro hb'
    exact hfront b' hb' b List.mem_cons_self
  · intro hlt
    rcases List.mem_append.mp hmem with hb' | hb'
    · exact hb'
    · rcases List.mem_cons.mp hb' with rfl | hb'
      · exact absurd hlt (UInt8.lt_irrefl b')
      · exact absurd hlt (UInt8.lt_asymm (List.rel_of_pairwise_cons hback hb'))

/-- Rows are made up to the lowest opcode that has an undeclared flag. -/
theorem rows_eq_error_iff (hlen : declared.length ≤ 8) :
    opcodeBytes.mapM (rowAt declared known) = .error fault ↔
      ∃ (b : UInt8) (x : Definition) (name : String), known[b]? = some x ∧
        x.FirstUnknown declared name ∧
        (∀ b' < b, ∀ y, known[b']? = some y → ∀ name' ∈ y.flags, name' ∈ declared) ∧
        fault = .unknownFlag x.mnemonic name := by
  simp only [mapM_eq_error_iff, rowAt_eq_error_iff, exists_rowAt_iff hlen,
    Definition.row_eq_error_iff hlen]
  constructor
  · rintro ⟨front, b, back, hbytes, hfront, x, hx, name, hname, hfault⟩
    simp only [mem_front_opcodeBytes_iff hbytes] at hfront
    exact ⟨b, x, name, hx, hname, hfront, hfault⟩
  · rintro ⟨b, x, name, hx, hname, hlower, hfault⟩
    obtain ⟨front, back, hbytes⟩ :=
      List.append_of_mem (List.mem_of_getElem? (getElem?_opcodeBytes b))
    simp only [← mem_front_opcodeBytes_iff hbytes] at hlower
    exact ⟨front, b, back, hbytes, hlower, x, hx, name, hname, hfault⟩

end Flags

/-! ## tables -/

namespace Table

variable {d : Description} {fault : TableFault}

/-- A table is missing if the flags do not fit a byte, or else the definitions are not gathered,
or else a byte does not have its row. -/
theorem build_eq_error_iff :
    build d = .error fault ↔
      8 < d.flags.length ∧ fault = .tooManyFlags d.flags.length ∨
        d.flags.length ≤ 8 ∧ (gather ∅ d.members = .error fault ∨
          ∃ known, gather ∅ d.members = .ok known ∧
            opcodeBytes.mapM (rowAt d.flags known) = .error fault) := by
  rw [build]
  by_cases hlen : 8 < d.flags.length
  · simp [hlen, Nat.not_le_of_lt hlen, eq_comm]
  · simp only [hlen, if_false, Nat.le_of_not_lt hlen, false_and, false_or, true_and]
    cases gather ∅ d.members with
    | error fault' => simp
    | ok known => cases hrows : opcodeBytes.mapM (rowAt d.flags known) <;> simp [hrows]

/-- A family without members asks for nothing. -/
theorem build_eq_of_count_eq_zero {before after : List Family} {f : Family}
    (hfamilies : d.families = before ++ f :: after) (hcount : f.count = 0) :
    build d = build { d with families := before ++ after } := by
  have hmembers : d.members = Description.members { d with families := before ++ after } := by
    simp [Description.members, hfamilies, Family.members, hcount]
  rw [build, build, hmembers]

/-- The table of a description without a faulty item is missing for a flag, if at all. -/
theorem rows_eq_error_iff_of_gather {known : Definitions} (hlen : d.flags.length ≤ 8)
    (h : gather ∅ (d.items.map Item.result) = .ok known) :
    opcodeBytes.mapM (rowAt d.flags known) = .error fault ↔
      ∃ item x name, item ∈ d.items ∧ item.Makes x ∧ x.FirstUnknown d.flags name ∧
        (∀ item' ∈ d.items, ∀ y, item'.Makes y → y.opcode < x.opcode →
          ∀ name' ∈ y.flags, name' ∈ d.flags) ∧
        fault = .unknownFlag x.mnemonic name := by
  rw [rows_eq_error_iff hlen]
  simp only [getElem?_gather_items h]
  constructor
  · rintro ⟨b, x, name, ⟨item, hitem, hx, rfl⟩, hname, hlower, hfault⟩
    refine ⟨item, x, name, hitem, hx, hname, ?_, hfault⟩
    intro item' hitem' y hy hlt
    exact hlower y.opcode hlt y ⟨item', hitem', hy, rfl⟩
  · rintro ⟨item, x, name, hitem, hx, hname, hlower, hfault⟩
    refine ⟨x.opcode, x, name, ⟨item, hitem, hx, rfl⟩, hname, ?_, hfault⟩
    rintro b' hlt y ⟨item', hitem', hy, rfl⟩
    exact hlower item' hitem' y hy hlt

theorem build_eq_error_iff_firstFault : build d = .error fault ↔ d.FirstFault fault := by
  rw [build_eq_error_iff, d.members_eq_map_result]
  constructor
  · rintro (⟨hlen, rfl⟩ | ⟨hlen, hgather | ⟨known, hgather, hrows⟩⟩)
    · exact .tooManyFlags hlen
    · obtain ⟨before, item, after, hitems, hbefore, hfault⟩ :=
        gather_items_eq_error_iff.mp hgather
      exact .item hlen hitems hbefore hfault
    · have hsound := Item.sound_iff.mpr ⟨known, hgather⟩
      obtain ⟨item, x, name, hitem, hx, hname, hlower, rfl⟩ :=
        (rows_eq_error_iff_of_gather hlen hgather).mp hrows
      exact .unknownFlag hlen hsound hitem hx hname hlower
  · intro h
    cases h with
    | tooManyFlags hlen => exact .inl ⟨hlen, rfl⟩
    | item hlen hitems hbefore hfault =>
        have hgather := gather_items_eq_error_iff.mpr ⟨_, _, _, hitems, hbefore, hfault⟩
        exact .inr ⟨hlen, .inl hgather⟩
    | unknownFlag hlen hsound hitem hx hname hlower =>
        obtain ⟨known, hgather⟩ := Item.sound_iff.mp hsound
        have hrows := (rows_eq_error_iff_of_gather hlen hgather).mpr
          ⟨_, _, _, hitem, hx, hname, hlower, rfl⟩
        exact .inr ⟨hlen, .inr ⟨known, hgather, hrows⟩⟩

/-- A first fault is reported in its words. -/
theorem message_of_firstFault (h : d.FirstFault fault) : fault.message = fault.wording := by
  cases h with
  | tooManyFlags hlen => rfl
  | unknownFlag => rfl
  | item hlen hitems hbefore hfault =>
      cases hfault with
      | byte => rfl
      | ordinal => rfl
      | @redefined _ _ x y hx hearlier hy h =>
          exact congrArg (fun opcode => "opcode " ++ opcode ++ " defined twice (" ++ y.mnemonic ++
            " and " ++ x.mnemonic ++ ")") (Numeral.hexByte_eq_hexText x.opcode)

/-- **Faults come in a fixed order.**  A description has no table exactly if it has a first
fault; this is the one reported, in the words for it.  Families without members make no
difference, whatever else they say. -/
theorem build_reports_first_fault (d : Description) :
    (∀ fault, build d = .error fault ↔ d.FirstFault fault) ∧
      (∀ fault, build d = .error fault → fault.message = fault.wording) ∧
      ∀ before f after, d.families = before ++ f :: after → f.count = 0 →
        build d = build { d with families := before ++ after } := by
  refine ⟨fun fault => build_eq_error_iff_firstFault, fun fault h => ?_,
    fun before f after => build_eq_of_count_eq_zero⟩
  exact message_of_firstFault (build_eq_error_iff_firstFault.mp h)

/-- A description with several faults: an undeclared flag, a family whose second member has
neither a byte nor an ordinal, and an opcode that is defined again after that. -/
def manyFaults : Description where
  flags := ["jump"]
  entries := [⟨0x01, "ADD", ["pure"]⟩]
  families :=
    [{ first := 0xff, count := 0, template := "LOG{n}", ordinalBase := 0xff, flags := ["log"] },
      { first := 0xff, count := 2, template := "DUP{n}", ordinalBase := 0xff },
      { first := 0x01, count := 1, template := "SWAP{n}" }]

/-- A description with an undeclared flag and two families that share an opcode. -/
def sharedOpcode : Description where
  flags := ["jump"]
  entries := [⟨0x01, "ADD", ["pure"]⟩]
  families :=
    [{ first := 0x60, count := 2, template := "PUSH{n}", immediate := .ordinal },
      { first := 0x61, count := 1, template := "LAST{n}X{n}" }]

/-- The byte that is missing comes first, and the family without members is passed over; and of
an opcode that two families share, the members that define it are named. -/
theorem build_reports_first_fault_manyFaults :
    manyFaults.FirstFault (.familyOverflow "DUP{n}") ∧
      build manyFaults = build { manyFaults with families := manyFaults.families.tail } ∧
      sharedOpcode.FirstFault (.redefined 0x61 "PUSH2" "LAST1X1") ∧
      (TableFault.redefined 0x61 "PUSH2" "LAST1X1").message =
        "opcode 0x61 defined twice (PUSH2 and LAST1X1)" := by
  obtain ⟨hmany, -, hempty⟩ := build_reports_first_fault manyFaults
  obtain ⟨hshared, hwording, -⟩ := build_reports_first_fault sharedOpcode
  have herror : build sharedOpcode = .error (.redefined 0x61 "PUSH2" "LAST1X1") := by
    decide +kernel
  refine ⟨(hmany _).mp (by decide +kernel), hempty [] _ _ rfl rfl, (hshared _).mp herror, ?_⟩
  exact (hwording _ herror).trans (by decide +kernel)

end Table

end EvmBlocks.Isa
