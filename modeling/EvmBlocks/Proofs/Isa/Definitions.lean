import EvmBlocks.Isa.Table
import EvmBlocks.Proofs.Numeral
import EvmBlocks.Proofs.Template
import Mathlib.Data.List.Nodup

/-!
# EvmBlocks.Proofs.Isa.Definitions

What a description says about the opcode bytes, and when it says it without
contradicting itself.

`Description.Defines` relates a description to the definitions that its entries
and the members of its families make, and `Description.Consistent` says when these
make up a table.  Neither mentions how a table is built.  Definitions are gathered
without a fault exactly if all of them exist and no byte has two of them
(`exists_gather_eq_ok_iff`), and then each is found under its byte
(`getElem?_gather`).
-/

namespace EvmBlocks

namespace Isa

/-! ## the meaning of a description -/

/-- A description makes a definition: an entry defines its byte as it says, and a
family defines one byte for each of its ordinals, with the ordinal in the place of
every placeholder of its template. -/
inductive Description.Defines (d : Description) : Definition → Prop where
  | entry {e : Entry} (he : e ∈ d.entries) : d.Defines ⟨e.opcode, e.mnemonic, 0, e.flags⟩
  | member {f : Family} {index : Nat} {x : Definition} (hf : f ∈ d.families)
      (hindex : index < f.count.toNat) (hopcode : x.opcode.toNat = f.first.toNat + index)
      (hmnemonic : Template.Fills f.template.toList
        (toString (f.ordinalBase.toNat + index)).toList x.mnemonic.toList)
      (hsize : x.immediateSize =
        if f.immediate = .ordinal then f.ordinalBase.toNat + index else 0)
      (hflags : x.flags = f.flags) : d.Defines x

/-- The numbers of the opcode bytes that a description defines, entries first. -/
def Description.opcodeNumbers (d : Description) : List Nat :=
  d.entries.map (fun e => e.opcode.toNat) ++
    d.families.flatMap fun f => (List.range f.count.toNat).map fun index => f.first.toNat + index

/-- A description means a table: its flags fit a byte, the members of its families
have bytes and ordinals, no opcode is defined twice, and every flag that is named
is declared. -/
structure Description.Consistent (d : Description) : Prop where
  flags_le : d.flags.length ≤ 8
  byte_le : ∀ f ∈ d.families, ∀ index < f.count.toNat, f.first.toNat + index ≤ 255
  ordinal_le : ∀ f ∈ d.families, ∀ index < f.count.toNat, f.ordinalBase.toNat + index ≤ 255
  distinct : d.opcodeNumbers.Nodup
  entry_flags : ∀ e ∈ d.entries, ∀ name ∈ e.flags, name ∈ d.flags
  family_flags : ∀ f ∈ d.families, 0 < f.count.toNat → ∀ name ∈ f.flags, name ∈ d.flags

instance (d : Description) : Decidable d.Consistent :=
  decidable_of_iff
    (d.flags.length ≤ 8 ∧
      (∀ f ∈ d.families, ∀ index < f.count.toNat, f.first.toNat + index ≤ 255) ∧
      (∀ f ∈ d.families, ∀ index < f.count.toNat, f.ordinalBase.toNat + index ≤ 255) ∧
      d.opcodeNumbers.Nodup ∧ (∀ e ∈ d.entries, ∀ name ∈ e.flags, name ∈ d.flags) ∧
      ∀ f ∈ d.families, 0 < f.count.toNat → ∀ name ∈ f.flags, name ∈ d.flags)
    ⟨fun ⟨h₁, h₂, h₃, h₄, h₅, h₆⟩ => ⟨h₁, h₂, h₃, h₄, h₅, h₆⟩,
      fun ⟨h₁, h₂, h₃, h₄, h₅, h₆⟩ => ⟨h₁, h₂, h₃, h₄, h₅, h₆⟩⟩

/-! ## the definitions of a description -/

/-- The byte and the ordinal of every member of a family exist. -/
def Family.InRange (f : Family) : Prop :=
  ∀ index < f.count.toNat,
    f.first.toNat + index ≤ maxByte ∧ f.ordinalBase.toNat + index ≤ maxByte

/-- The definition made by the member of a family at `index`, if it is in range. -/
def Family.definition (f : Family) (index : Nat) : Definition where
  opcode := UInt8.ofNat (f.first.toNat + index)
  mnemonic := Template.expand f.template (Numeral.decimal (f.ordinalBase.toNat + index))
  immediateSize := f.immediate.size (f.ordinalBase.toNat + index)
  flags := f.flags

/-- The definitions that a description makes, entries first, if all of them are in
range. -/
def Description.definitions (d : Description) : List Definition :=
  d.entries.map Entry.definition ++
    d.families.flatMap fun f => (List.range f.count.toNat).map f.definition

theorem Family.member_eq_ok_iff {f : Family} {index : Nat} {x : Definition} :
    f.member index = .ok x ↔
      (f.first.toNat + index ≤ maxByte ∧ f.ordinalBase.toNat + index ≤ maxByte) ∧
        x = f.definition index := by
  unfold member
  by_cases hbyte : f.first.toNat + index ≤ maxByte
  · rw [Checked.add_of_le hbyte]
    by_cases hordinal : f.ordinalBase.toNat + index ≤ maxByte
    · simp [Checked.add_of_le hordinal, hbyte, hordinal, definition, eq_comm]
    · simp [Checked.add_of_lt (Nat.lt_of_not_le hordinal), hordinal]
  · simp [Checked.add_of_lt (Nat.lt_of_not_le hbyte), hbyte]

theorem Family.members_eq_of_inRange {f : Family} (h : f.InRange) :
    f.members = ((List.range f.count.toNat).map f.definition).map .ok := by
  rw [members, List.map_map]
  apply List.map_congr_left
  intro index hindex
  exact member_eq_ok_iff.mpr ⟨h index (List.mem_range.mp hindex), rfl⟩

/-- All members of a description exist exactly if its families are in range, and
then they are its definitions. -/
theorem Description.members_eq_map_ok_iff {d : Description} {ds : List Definition} :
    d.members = ds.map .ok ↔ (∀ f ∈ d.families, f.InRange) ∧ ds = d.definitions := by
  have hmembers : (∀ f ∈ d.families, f.InRange) → d.members = d.definitions.map .ok := by
    intro hrange
    have hfamilies : d.families.flatMap Family.members =
        (d.families.flatMap fun f => (List.range f.count.toNat).map f.definition).map .ok := by
      rw [List.map_flatMap]
      apply List.flatMap_congr
      exact fun f hf => f.members_eq_of_inRange (hrange f hf)
    rw [members, definitions, hfamilies, List.map_append, List.map_map]
    rfl
  constructor
  · intro h
    have hrange : ∀ f ∈ d.families, f.InRange := by
      intro f hf index hindex
      have hmem : f.member index ∈ ds.map .ok := by
        rw [← h, members]
        apply List.mem_append_right
        refine List.mem_flatMap.mpr ⟨f, hf, ?_⟩
        exact List.mem_map_of_mem (List.mem_range.mpr hindex)
      obtain ⟨x, -, hx⟩ := List.mem_map.mp hmem
      exact (Family.member_eq_ok_iff.mp hx.symm).1
    refine ⟨hrange, ?_⟩
    have heq := h.symm.trans (hmembers hrange)
    exact List.map_injective_iff.mpr (fun _ _ => Except.ok.inj) heq
  · rintro ⟨hrange, rfl⟩
    exact hmembers hrange

/-- The definition of a member in range, part by part. -/
theorem Family.eq_definition_iff {f : Family} {index : Nat} {x : Definition}
    (h : f.first.toNat + index ≤ maxByte) :
    x = f.definition index ↔
      x.opcode.toNat = f.first.toNat + index ∧
        Template.Fills f.template.toList (toString (f.ordinalBase.toNat + index)).toList
          x.mnemonic.toList ∧
        x.immediateSize = (if f.immediate = .ordinal then f.ordinalBase.toNat + index else 0) ∧
        x.flags = f.flags := by
  obtain ⟨opcode, mnemonic, size, flags⟩ := x
  rw [definition, Definition.mk.injEq]
  refine and_congr ?_ (and_congr ?_ (and_congr ?_ Iff.rfl))
  · have hlt : f.first.toNat + index < 256 := Nat.lt_succ_of_le h
    rw [← UInt8.toNat_inj, UInt8.toNat_ofNat_of_lt' hlt]
  · rw [Template.fills_iff, Template.expand, ← String.toList_inj, String.toList_ofList,
      Numeral.decimal_eq_toString]
  · cases himmediate : f.immediate <;> simp [Immediate.size]

/-- The definitions of a description in range are those that it makes. -/
theorem Description.mem_definitions_iff {d : Description} (h : ∀ f ∈ d.families, f.InRange)
    {x : Definition} : x ∈ d.definitions ↔ d.Defines x := by
  simp only [definitions, List.mem_append, List.mem_map, List.mem_flatMap, List.mem_range]
  constructor
  · rintro (⟨e, he, rfl⟩ | ⟨f, hf, index, hindex, hx⟩)
    · exact .entry he
    · obtain ⟨hopcode, hmnemonic, hsize, hflags⟩ :=
        (f.eq_definition_iff (h f hf index hindex).1).mp hx.symm
      exact .member hf hindex hopcode hmnemonic hsize hflags
  · intro hx
    cases hx with
    | entry he => exact .inl ⟨_, he, rfl⟩
    | member hf hindex hopcode hmnemonic hsize hflags =>
        refine .inr ⟨_, hf, _, hindex, Eq.symm ?_⟩
        rw [Family.eq_definition_iff (h _ hf _ hindex).1]
        exact ⟨hopcode, hmnemonic, hsize, hflags⟩

/-- The opcodes of the definitions of a description in range. -/
theorem Description.map_toNat_opcode_definitions {d : Description}
    (h : ∀ f ∈ d.families, f.InRange) :
    (d.definitions.map Definition.opcode).map UInt8.toNat = d.opcodeNumbers := by
  have hfamily : ∀ f ∈ d.families,
      ((List.range f.count.toNat).map f.definition).map (fun x => x.opcode.toNat) =
        (List.range f.count.toNat).map fun index => f.first.toNat + index := by
    intro f hf
    rw [List.map_map]
    apply List.map_congr_left
    intro index hindex
    exact ((f.eq_definition_iff (h f hf index (List.mem_range.mp hindex)).1).mp rfl).1
  rw [definitions, opcodeNumbers, List.map_map, List.map_append, List.map_map, List.map_flatMap]
  congr 1
  exact List.flatMap_congr hfamily

/-- The flags named by the definitions of a description are those named by its
entries, and by its families that have members. -/
theorem Description.forall_flags_definitions_iff {d : Description} :
    (∀ x ∈ d.definitions, ∀ name ∈ x.flags, name ∈ d.flags) ↔
      (∀ e ∈ d.entries, ∀ name ∈ e.flags, name ∈ d.flags) ∧
        ∀ f ∈ d.families, 0 < f.count.toNat → ∀ name ∈ f.flags, name ∈ d.flags := by
  simp only [definitions, List.mem_append, List.mem_map, List.mem_flatMap, List.mem_range]
  constructor
  · intro h
    refine ⟨fun e he => h e.definition (.inl ⟨e, he, rfl⟩), fun f hf hcount => ?_⟩
    exact h (f.definition 0) (.inr ⟨f, hf, 0, hcount, rfl⟩)
  · rintro ⟨hentries, hfamilies⟩ x (⟨e, he, rfl⟩ | ⟨f, hf, index, hindex, rfl⟩)
    · exact hentries e he
    · exact hfamilies f hf (Nat.zero_lt_of_lt hindex)

/-- Consistency, said of the definitions. -/
theorem Description.consistent_iff {d : Description} :
    d.Consistent ↔ d.flags.length ≤ 8 ∧ (∀ f ∈ d.families, f.InRange) ∧
      (d.definitions.map Definition.opcode).Nodup ∧
      ∀ x ∈ d.definitions, ∀ name ∈ x.flags, name ∈ d.flags := by
  have hdistinct : (∀ f ∈ d.families, f.InRange) →
      ((d.definitions.map Definition.opcode).Nodup ↔ d.opcodeNumbers.Nodup) := by
    intro hrange
    rw [← map_toNat_opcode_definitions hrange,
      List.nodup_map_iff fun _ _ => UInt8.toNat_inj.mp]
  rw [forall_flags_definitions_iff]
  constructor
  · intro h
    have hrange : ∀ f ∈ d.families, f.InRange :=
      fun f hf index hindex => ⟨h.byte_le f hf index hindex, h.ordinal_le f hf index hindex⟩
    exact ⟨h.flags_le, hrange, (hdistinct hrange).mpr h.distinct, h.entry_flags, h.family_flags⟩
  · rintro ⟨hlen, hrange, hnodup, hentries, hfamilies⟩
    exact ⟨hlen, fun f hf index hindex => (hrange f hf index hindex).1,
      fun f hf index hindex => (hrange f hf index hindex).2, (hdistinct hrange).mp hnodup,
      hentries, hfamilies⟩

/-! ## gathered definitions -/

section Gather

variable {known known' : Definitions} {members : List (Except TableFault Definition)}
  {ds : List Definition}

/-- **One step**: a definition is gathered if it exists and its byte is free. -/
theorem gather_cons_eq_ok_iff {member : Except TableFault Definition} :
    gather known (member :: members) = .ok known' ↔
      ∃ x, member = .ok x ∧ x.opcode ∉ known ∧
        gather (known.insert x.opcode x) members = .ok known' := by
  cases member with
  | error fault => simp [gather]
  | ok x =>
      simp only [gather, Except.ok.injEq, exists_eq_left', Std.TreeMap.mem_iff_isSome_getElem?]
      cases known[x.opcode]? <;> simp

/-- **A whole run**: definitions are gathered if all of them exist, no two have one
byte, and none has the byte of a known one. -/
theorem exists_gather_eq_ok_iff :
    (∃ known', gather known members = .ok known') ↔
      ∃ ds : List Definition, members = ds.map .ok ∧ (ds.map Definition.opcode).Nodup ∧
        ∀ x ∈ ds, x.opcode ∉ known := by
  induction members generalizing known with
  | nil => simp [gather]
  | cons member members ih =>
      simp only [gather_cons_eq_ok_iff]
      constructor
      · rintro ⟨known', x, rfl, hfree, hrest⟩
        obtain ⟨ds, rfl, hnodup, hfresh⟩ := ih.mp ⟨known', hrest⟩
        simp only [Std.TreeMap.mem_insert, Std.LawfulEqCmp.compare_eq_iff_eq, not_or] at hfresh
        refine ⟨x :: ds, rfl, ?_, ?_⟩
        · simp only [List.map_cons, List.nodup_cons, List.mem_map, not_exists, not_and]
          exact ⟨fun y hy heq => (hfresh y hy).1 heq.symm, hnodup⟩
        · simp only [List.mem_cons, forall_eq_or_imp]
          exact ⟨hfree, fun y hy => (hfresh y hy).2⟩
      · rintro ⟨ds, hds, hnodup, hfresh⟩
        obtain ⟨x, ds, rfl, rfl, rfl⟩ := List.map_eq_cons_iff.mp hds.symm
        rw [List.map_cons, List.nodup_cons] at hnodup
        obtain ⟨hfree, hrest⟩ := List.forall_mem_cons.mp hfresh
        have hfresh' : ∀ y ∈ ds, y.opcode ∉ known.insert x.opcode x := by
          simp only [Std.TreeMap.mem_insert, Std.LawfulEqCmp.compare_eq_iff_eq, not_or]
          intro y hy
          refine ⟨fun heq => hnodup.1 ?_, hrest y hy⟩
          rw [heq]
          exact List.mem_map_of_mem hy
        obtain ⟨known', hknown'⟩ := ih.mpr ⟨ds, rfl, hnodup.2, hfresh'⟩
        exact ⟨known', x, rfl, hfree, hknown'⟩

/-- Gathered definitions are found under their bytes, beside the known ones. -/
theorem getElem?_gather (h : gather known (ds.map .ok) = .ok known') {byte : UInt8}
    {x : Definition} :
    known'[byte]? = some x ↔ x ∈ ds ∧ x.opcode = byte ∨ known[byte]? = some x := by
  induction ds generalizing known with
  | nil =>
      obtain rfl : known = known' := by simpa [gather] using h
      simp
  | cons y ds ih =>
      rw [List.map_cons, gather_cons_eq_ok_iff] at h
      obtain ⟨_, heq, hfree, hrest⟩ := h
      obtain rfl := Except.ok.inj heq
      have hnone : known[y.opcode]? = none := Std.TreeMap.getElem?_eq_none hfree
      rw [ih hrest, Std.TreeMap.getElem?_insert, List.mem_cons]
      simp only [Std.LawfulEqCmp.compare_eq_iff_eq]
      by_cases hbyte : y.opcode = byte
      · subst hbyte
        grind
      · grind

theorem getElem?_gather_empty (h : gather ∅ (ds.map .ok) = .ok known') {byte : UInt8}
    {x : Definition} : known'[byte]? = some x ↔ x ∈ ds ∧ x.opcode = byte := by
  simpa using getElem?_gather h

end Gather

end Isa

end EvmBlocks
