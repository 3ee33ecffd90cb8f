import EvmBlocks.Proofs.Isa.Reordering

/-!
# EvmBlocks.Proofs.Isa.Expansion

A family of opcodes means its members, however they are written down.

A family may be cut in two at any of its members: the second part begins so many bytes
later, and its ordinals do too (`Family.front`, `Family.back`).  A family without
operands may also be written as one entry for each member (`Family.singles`).  Both
ways the same definitions are made in another order (`Family.definitions_eq_append`,
`Family.definition_single`), so the description still means the same table.

The sums in all this are sums of bytes.  In a description that has a table they do not
wrap around, because the member at which a family is cut is itself in range
(`Family.InRange.toNat_back`).
-/

namespace EvmBlocks.Isa

open scoped List

namespace Family

/-! ## the parts of a family -/

/-- The first `k` members of a family, as a family. -/
def front (f : Family) (k : UInt8) : Family := { f with count := k }

/-- The members of a family behind the first `k`, as a family. -/
def back (f : Family) (k : UInt8) : Family :=
  { f with first := f.first + k, count := f.count - k, ordinalBase := f.ordinalBase + k }

/-- The member of a family at `index`, as an entry. -/
def single (f : Family) (index : Nat) : Entry where
  opcode := UInt8.ofNat (f.first.toNat + index)
  mnemonic := Template.expand f.template (Numeral.decimal (f.ordinalBase.toNat + index))
  flags := f.flags

/-- The members of a family as entries, in ascending order. -/
def singles (f : Family) : List Entry := (List.range f.count.toNat).map f.single

/-- The entry says what the member of a family at `index` does. -/
structure Spells (f : Family) (index : Nat) (e : Entry) : Prop where
  opcode : e.opcode.toNat = f.first.toNat + index
  mnemonic : Template.Fills f.template.toList (toString (f.ordinalBase.toNat + index)).toList
    e.mnemonic.toList
  flags : e.flags = f.flags

/-- The definitions that a family makes, if it is in range. -/
def definitions (f : Family) : List Definition := (List.range f.count.toNat).map f.definition

variable {f : Family} {k : UInt8}

/-- A family in range does not wrap around where it is cut. -/
theorem InRange.toNat_back (h : f.InRange) (hk : k < f.count) :
    (f.back k).first.toNat = f.first.toNat + k.toNat ∧
      (f.back k).count.toNat = f.count.toNat - k.toNat ∧
      (f.back k).ordinalBase.toNat = f.ordinalBase.toNat + k.toNat := by
  obtain ⟨hbyte, hordinal⟩ := h k.toNat (UInt8.lt_iff_toNat_lt.mp hk)
  refine ⟨?_, UInt8.toNat_sub_of_le _ _ (UInt8.le_of_lt hk), ?_⟩
  · exact (UInt8.toNat_add _ _).trans (Nat.mod_eq_of_lt (Nat.lt_succ_of_le hbyte))
  · exact (UInt8.toNat_add _ _).trans (Nat.mod_eq_of_lt (Nat.lt_succ_of_le hordinal))

theorem InRange.front (h : f.InRange) (hk : k < f.count) : (f.front k).InRange := by
  intro index hindex
  exact h index (hindex.trans (UInt8.lt_iff_toNat_lt.mp hk))

theorem InRange.back (h : f.InRange) (hk : k < f.count) : (f.back k).InRange := by
  obtain ⟨hfirst, hcount, hbase⟩ := h.toNat_back hk
  intro index hindex
  rw [hcount] at hindex
  rw [hfirst, hbase, Nat.add_assoc, Nat.add_assoc]
  exact h (k.toNat + index) (by omega)

/-! ## the definitions of the parts -/

/-- Behind the cut, members are counted from the cut on. -/
theorem definition_back (h : f.InRange) (hk : k < f.count) (index : Nat) :
    (f.back k).definition index = f.definition (k.toNat + index) := by
  obtain ⟨hfirst, -, hbase⟩ := h.toNat_back hk
  simp only [definition, hfirst, hbase, Nat.add_assoc]
  rfl

/-- The definitions of a family are those of its two parts. -/
theorem definitions_eq_append (h : f.InRange) (hk : k < f.count) :
    f.definitions = (f.front k).definitions ++ (f.back k).definitions := by
  obtain ⟨-, hcount, -⟩ := h.toNat_back hk
  have hlt := UInt8.lt_iff_toNat_lt.mp hk
  have hsum : f.count.toNat = k.toNat + (f.back k).count.toNat := by omega
  rw [definitions, hsum, List.range_add, List.map_append, List.map_map]
  congr 1
  apply List.map_congr_left
  intro index _
  exact (definition_back h hk index).symm

/-- A member without an operand is defined by its entry. -/
theorem definition_single (h : f.immediate = .absent) (index : Nat) :
    (f.single index).definition = f.definition index := by
  rw [definition, h]
  rfl

theorem map_definition_singles (h : f.immediate = .absent) :
    f.singles.map Entry.definition = f.definitions := by
  rw [singles, List.map_map, definitions]
  apply List.map_congr_left
  intro index _
  exact definition_single h index

/-- The entries of a family in range say what its members do. -/
theorem InRange.spells_single (h : f.InRange) {index : Nat} (hindex : index < f.count.toNat) :
    f.Spells index (f.single index) := by
  obtain ⟨hopcode, hmnemonic, -⟩ := (f.eq_definition_iff (h index hindex).1).mp rfl
  exact ⟨hopcode, hmnemonic, rfl⟩

end Family

/-! ## descriptions with other parts -/

namespace Description

variable {d : Description} {before after : List Family} {f : Family}

theorem definitions_eq (d : Description) :
    d.definitions = d.entries.map Entry.definition ++ d.families.flatMap Family.definitions := rfl

/-- A description agrees with the one in which a family is cut in two. -/
theorem agrees_split (hrange : ∀ f ∈ d.families, f.InRange)
    (hf : d.families = before ++ f :: after) {k : UInt8} (hk : k < f.count) :
    d.Agrees { d with families := before ++ f.front k :: f.back k :: after } where
  flags := rfl
  inRange := hrange
  inRange' := by
    simp only [hf, List.mem_append, List.mem_cons] at hrange ⊢
    rintro g (hg | rfl | rfl | hg)
    · exact hrange g (.inl hg)
    · exact (hrange f (.inr (.inl rfl))).front hk
    · exact (hrange f (.inr (.inl rfl))).back hk
    · exact hrange g (.inr (.inr hg))
  perm := by
    have hfrange : f.InRange := hrange f (by simp [hf])
    simp [definitions_eq, hf, Family.definitions_eq_append hfrange hk]

/-- A description agrees with the one in which a family without operands is replaced by
entries, wherever these are put. -/
theorem agrees_singles (hrange : ∀ f ∈ d.families, f.InRange)
    (hf : d.families = before ++ f :: after) (himmediate : f.immediate = .absent)
    {entries : List Entry} (hentries : entries.Perm (d.entries ++ f.singles)) :
    d.Agrees { d with entries := entries, families := before ++ after } where
  flags := rfl
  inRange := hrange
  inRange' := by
    simp only [hf, List.mem_append, List.mem_cons] at hrange ⊢
    rintro g (hg | hg)
    · exact hrange g (.inl hg)
    · exact hrange g (.inr (.inr hg))
  perm := by
    have hdefinitions := hentries.map Entry.definition
    rw [List.map_append, Family.map_definition_singles himmediate] at hdefinitions
    apply List.Perm.map
    simp only [definitions_eq, hf, List.flatMap_append, List.flatMap_cons]
    calc
      _ ~ d.entries.map Entry.definition ++ (f.definitions ++ (before.flatMap Family.definitions ++
            after.flatMap Family.definitions)) := (List.perm_append_comm_assoc _ _ _).append_left _
      _ = d.entries.map Entry.definition ++ f.definitions ++ (before.flatMap Family.definitions ++
            after.flatMap Family.definitions) := (List.append_assoc _ _ _).symm
      _ ~ _ := hdefinitions.symm.append_right _

end Description

/-- A family means its members.  In a description that has a table, a family may be cut in two
behind any of its members, and a family without operands may be replaced by an entry for each
member, wherever these entries are put.  The description still has a table, and the source
text of the table is the same.  No byte of the new parts wraps around. -/
theorem source_eq_of_expanded {d : Description} {t : Table} {before after : List Family}
    {f : Family} (ht : Table.build d = .ok t) (hf : d.families = before ++ f :: after) :
    (∀ k : UInt8, 0 < k → k < f.count →
        ((f.back k).first.toNat = f.first.toNat + k.toNat ∧
          (f.back k).count.toNat = f.count.toNat - k.toNat ∧
          (f.back k).ordinalBase.toNat = f.ordinalBase.toNat + k.toNat) ∧
        ∃ t', Table.build { d with families := before ++ f.front k :: f.back k :: after } =
            .ok t' ∧ t'.source = t.source) ∧
      (f.immediate = .absent →
        (∀ index < f.count.toNat, f.Spells index (f.single index)) ∧
        ∀ entries : List Entry, entries.Perm (d.entries ++ f.singles) →
          ∃ t', Table.build { d with entries := entries, families := before ++ after } =
            .ok t' ∧ t'.source = t.source) := by
  have hrange := Table.inRange_of_build ht
  have hfrange : f.InRange := hrange f (by simp [hf])
  refine ⟨fun k _ hk => ⟨hfrange.toNat_back hk, t, ?_, rfl⟩, fun himmediate => ⟨?_, ?_⟩⟩
  · exact Table.build_of_agrees (Description.agrees_split hrange hf hk) ht
  · exact fun index hindex => hfrange.spells_single hindex
  · intro entries hentries
    exact ⟨t, Table.build_of_agrees (Description.agrees_singles hrange hf himmediate hentries) ht,
      rfl⟩

/-- The pushes are cut behind `PUSH1`, and the two `DUP` opcodes are put around `STOP`, the
second one first. -/
theorem source_eq_of_expanded_stackOps :
    ∃ t, Table.build stackOps = .ok t ∧
      (∃ t', Table.build
          { stackOps with
            families := [⟨0x80, 2, "DUP\x7bn\x7d", 1, .absent, ["push", "pure"]⟩,
              ⟨0x60, 1, "PUSH\x7bn\x7d", 1, .ordinal, ["push"]⟩,
              ⟨0x61, 2, "PUSH\x7bn\x7d", 2, .ordinal, ["push"]⟩] } = .ok t' ∧
        t'.source = t.source) ∧
      ∃ t', Table.build
          { stackOps with
            entries := [⟨0x81, "DUP2", ["push", "pure"]⟩, ⟨0x00, "STOP", ["halt"]⟩,
              ⟨0x80, "DUP1", ["push", "pure"]⟩, ⟨0x01, "ADD", ["pure", "push"]⟩]
            families := [⟨0x60, 3, "PUSH\x7bn\x7d", 1, .ordinal, ["push"]⟩] } = .ok t' ∧
        t'.source = t.source := by
  obtain ⟨t, ht⟩ := Table.exists_build_of_consistent (d := stackOps) (by decide)
  have hpush : stackOps.families =
      [⟨0x80, 2, "DUP\x7bn\x7d", 1, .absent, ["push", "pure"]⟩] ++
        ⟨0x60, 3, "PUSH\x7bn\x7d", 1, .ordinal, ["push"]⟩ :: [] := rfl
  have hdup : stackOps.families =
      [] ++ ⟨0x80, 2, "DUP\x7bn\x7d", 1, .absent, ["push", "pure"]⟩ ::
        [⟨0x60, 3, "PUSH\x7bn\x7d", 1, .ordinal, ["push"]⟩] := rfl
  refine ⟨t, ht, ?_, ?_⟩
  · exact ((source_eq_of_expanded ht hpush).1 1 (by decide) (by decide)).2
  · exact ((source_eq_of_expanded ht hdup).2 rfl).2 _ (by decide)

end EvmBlocks.Isa
