import EvmBlocks.Isa.Source
import EvmBlocks.Proofs.Isa.Table
import Mathlib.Data.Finset.Dedup

/-!
# EvmBlocks.Proofs.Isa.Reordering

The order in which a description is written does not show in its table.

Two descriptions agree if they make the same definitions up to order, with the flags of
a definition taken as a set (`Description.Agrees`).  They are then both consistent or
both not, and rows that render the same definition are equal (`Row.Renders.eq`), so what
is built from one of them is built from the other (`Table.build_of_agrees`).

Two descriptions are the same up to order if their entries and families are
(`Description.Reorders`), and then they agree.  Which fault is reported does depend on
the order, but not whether there is one.
-/

namespace EvmBlocks.Isa

/-! ## definitions up to order -/

/-- The definition without its flags, and the set of them. -/
def Definition.unordered (x : Definition) : Definition × Finset String :=
  ({ x with flags := [] }, x.flags.toFinset)

theorem Definition.unordered_eq_iff {x y : Definition} :
    x.unordered = y.unordered ↔ x.opcode = y.opcode ∧ x.mnemonic = y.mnemonic ∧
      x.immediateSize = y.immediateSize ∧ ∀ name, name ∈ x.flags ↔ name ∈ y.flags := by
  simp [unordered, Finset.ext_iff, and_assoc]

/-- Two descriptions declare the same flags, have their families in range, and make the
same definitions up to order. -/
structure Description.Agrees (d d' : Description) : Prop where
  flags : d.flags = d'.flags
  inRange : ∀ f ∈ d.families, f.InRange
  inRange' : ∀ f ∈ d'.families, f.InRange
  perm : (d.definitions.map Definition.unordered).Perm (d'.definitions.map Definition.unordered)

section Agrees

variable {d d' : Description}

namespace Description.Agrees

theorem symm (h : d.Agrees d') : d'.Agrees d := ⟨h.flags.symm, h.inRange', h.inRange, h.perm.symm⟩

theorem exists_mem_definitions (h : d.Agrees d') {x : Definition} (hx : x ∈ d.definitions) :
    ∃ x' ∈ d'.definitions, x'.unordered = x.unordered :=
  List.mem_map.mp (h.perm.mem_iff.mp (List.mem_map_of_mem hx))

/-- Consistency is a matter of the definitions, and not of their order. -/
theorem consistent (h : d.Agrees d') (hd : d.Consistent) : d'.Consistent := by
  obtain ⟨hlen, -, hnodup, hflags⟩ := consistent_iff.mp hd
  have hopcodes : (d.definitions.map Definition.opcode).Perm
      (d'.definitions.map Definition.opcode) := by
    simpa [Function.comp_def, Definition.unordered] using h.perm.map fun x => x.1.opcode
  refine consistent_iff.mpr ⟨h.flags ▸ hlen, h.inRange', hopcodes.nodup_iff.mp hnodup, ?_⟩
  intro x' hx' name hname
  obtain ⟨x, hx, heq⟩ := h.symm.exists_mem_definitions hx'
  rw [← h.flags]
  exact hflags x hx name (((Definition.unordered_eq_iff.mp heq).2.2.2 name).mpr hname)

theorem exists_defines (h : d.Agrees d') {x : Definition} (hx : d.Defines x) :
    ∃ x', d'.Defines x' ∧ x'.unordered = x.unordered := by
  obtain ⟨x', hx', heq⟩ := h.exists_mem_definitions ((mem_definitions_iff h.inRange).mpr hx)
  exact ⟨x', (mem_definitions_iff h.inRange').mp hx', heq⟩

end Description.Agrees

/-! ## rows and tables -/

/-- Rows that render the same definition up to order are equal. -/
theorem Row.Renders.eq {r r' : Row} {declared : List String} {x x' : Definition}
    (hr : r.Renders declared x) (hr' : r'.Renders declared x') (h : x.unordered = x'.unordered) :
    r = r' := by
  obtain ⟨hopcode, hmnemonic, hsize, hnames⟩ := Definition.unordered_eq_iff.mp h
  have hflags : r.flags = r'.flags := by
    apply FlagSet.eq_of_has_iff
    intro i
    simp only [hr.flags, hr'.flags, hnames]
  rw [← hr.opcode, ← hr'.opcode] at hopcode
  rw [← hr.mnemonic, ← hr'.mnemonic] at hmnemonic
  rw [← hr.immediateSize, ← hr'.immediateSize] at hsize
  cases r
  cases r'
  congr

namespace Table

variable {t t' : Table}

/-- A byte that is defined has the same row in both tables. -/
theorem Means.row?_eq_of_defines (h : d.Agrees d') (ht : t.Means d) (ht' : t'.Means d')
    {x : Definition} (hx : d.Defines x) : t.row? x.opcode = t'.row? x.opcode := by
  obtain ⟨x', hx', heq⟩ := h.exists_defines hx
  obtain ⟨r, hr, hrenders⟩ := ht.defined x hx
  obtain ⟨r', hr', hrenders'⟩ := ht'.defined x' hx'
  rw [(Definition.unordered_eq_iff.mp heq).1] at hr'
  rw [h.flags] at hrenders
  rw [hr, hr', hrenders.eq hrenders' heq.symm]

theorem Means.row?_eq (h : d.Agrees d') (ht : t.Means d) (ht' : t'.Means d') (b : UInt8) :
    t.row? b = t'.row? b := by
  by_cases hd : ∃ x, d.Defines x ∧ x.opcode = b
  · obtain ⟨x, hx, rfl⟩ := hd
    exact ht.row?_eq_of_defines h ht' hx
  by_cases hd' : ∃ x, d'.Defines x ∧ x.opcode = b
  · obtain ⟨x, hx, rfl⟩ := hd'
    exact (ht'.row?_eq_of_defines h.symm ht hx).symm
  · rw [ht.undefined b fun x hx hb => hd ⟨x, hx, hb⟩,
      ht'.undefined b fun x hx hb => hd' ⟨x, hx, hb⟩]

/-- Descriptions that agree mean the same table. -/
theorem Means.eq (h : d.Agrees d') (ht : t.Means d) (ht' : t'.Means d') : t = t' := by
  have hnames : t.flagNames = t'.flagNames := by rw [ht.flagNames, ht'.flagNames, h.flags]
  have hrows : t.rows.toList = t'.rows.toList := by
    rw [toList_rows ht.size_rows, toList_rows ht'.size_rows, funext (ht.row?_eq h ht')]
  cases t
  cases t'
  rw [mk.injEq]
  exact ⟨hnames, Array.toList_inj.mp hrows⟩

/-- What is built from a description is built from each one that agrees with it. -/
theorem build_of_agrees (h : d.Agrees d') (ht : build d = .ok t) : build d' = .ok t := by
  obtain ⟨hconsistent, hmeans⟩ := consistent_and_means_of_build ht
  obtain ⟨t', ht'⟩ := exists_build_of_consistent (h.consistent hconsistent)
  rw [ht', hmeans.eq h (consistent_and_means_of_build ht').2]

theorem inRange_of_build (ht : build d = .ok t) : ∀ f ∈ d.families, f.InRange :=
  (Description.consistent_iff.mp (consistent_and_means_of_build ht).1).2.1

end Table

end Agrees

/-! ## descriptions up to order -/

/-- The entry without its flags, and the set of them. -/
def Entry.unordered (e : Entry) : Entry × Finset String :=
  ({ e with flags := [] }, e.flags.toFinset)

/-- The family without its flags, and the set of them. -/
def Family.unordered (f : Family) : Family × Finset String :=
  ({ f with flags := [] }, f.flags.toFinset)

/-- The first description declares the flags of the second and is otherwise the same up to
order: its entries and its families are permuted, and the flags named by each of them
may be permuted and repeated. -/
structure Description.Reorders (d d' : Description) : Prop where
  flags : d.flags = d'.flags
  entries : (d.entries.map Entry.unordered).Perm (d'.entries.map Entry.unordered)
  families : (d.families.map Family.unordered).Perm (d'.families.map Family.unordered)

/-- The definitions of a description up to order, by its entries and families up to order. -/
theorem Description.map_unordered_definitions (d : Description) :
    d.definitions.map Definition.unordered =
      (d.entries.map Entry.unordered).map (fun e => (e.1.definition, e.2)) ++
        (d.families.map Family.unordered).flatMap fun f =>
          (List.range f.1.count.toNat).map fun index => (f.1.definition index, f.2) := by
  simp only [definitions, List.map_append, List.map_flatMap, List.flatMap_map, List.map_map]
  rfl

namespace Description.Reorders

variable {d d' : Description}

theorem symm (h : d.Reorders d') : d'.Reorders d :=
  ⟨h.flags.symm, h.entries.symm, h.families.symm⟩

theorem perm_definitions (h : d.Reorders d') :
    (d.definitions.map Definition.unordered).Perm (d'.definitions.map Definition.unordered) := by
  rw [map_unordered_definitions, map_unordered_definitions]
  exact (h.entries.map _).append (h.families.flatMap_right _)

theorem inRange (h : d.Reorders d') (hrange : ∀ f ∈ d.families, f.InRange) :
    ∀ f ∈ d'.families, f.InRange := by
  intro f' hf'
  obtain ⟨f, hf, heq⟩ := List.mem_map.mp (h.families.mem_iff.mpr (List.mem_map_of_mem hf'))
  have hf : f.unordered.1.InRange := hrange f hf
  rwa [heq] at hf

end Description.Reorders

/-- What is built from a description is built from each reordering of it. -/
theorem Table.build_of_reorders {d d' : Description} {t : Table} (h : d.Reorders d')
    (ht : build d = .ok t) : build d' = .ok t := by
  have hrange := inRange_of_build ht
  exact build_of_agrees ⟨h.flags, hrange, h.inRange hrange, h.perm_definitions⟩ ht

/-- The order of a description does not matter.  If one description reorders another, both
have a table or none has one, and the source texts of the tables are the same. -/
theorem source_eq_of_reorders {d d' : Description} (h : d.Reorders d') :
    ((∃ t, Table.build d = .ok t) ↔ ∃ t', Table.build d' = .ok t') ∧
      ∀ t t', Table.build d = .ok t → Table.build d' = .ok t' → t.source = t'.source := by
  refine ⟨⟨?_, ?_⟩, fun t t' ht ht' => ?_⟩
  · rintro ⟨t, ht⟩
    exact ⟨t, Table.build_of_reorders h ht⟩
  · rintro ⟨t', ht'⟩
    exact ⟨t', Table.build_of_reorders h.symm ht'⟩
  · rw [Table.build_of_reorders h ht] at ht'
    rw [Except.ok.inj ht']

/-- Two opcodes and two families. -/
def stackOps : Description where
  flags := ["push", "pure", "halt"]
  entries := [⟨0x00, "STOP", ["halt"]⟩, ⟨0x01, "ADD", ["pure", "push"]⟩]
  families := [⟨0x80, 2, "DUP\x7bn\x7d", 1, .absent, ["push", "pure"]⟩,
    ⟨0x60, 3, "PUSH\x7bn\x7d", 1, .ordinal, ["push"]⟩]

/-- The same, with the opcodes and the families the other way round and with flags swapped
and repeated. -/
def stackOpsReordered : Description where
  flags := ["push", "pure", "halt"]
  entries := [⟨0x01, "ADD", ["push", "pure", "push"]⟩, ⟨0x00, "STOP", ["halt", "halt"]⟩]
  families := [⟨0x60, 3, "PUSH\x7bn\x7d", 1, .ordinal, ["push", "push"]⟩,
    ⟨0x80, 2, "DUP\x7bn\x7d", 1, .absent, ["pure", "push"]⟩]

theorem source_eq_stackOps :
    stackOps.Reorders stackOpsReordered ∧ stackOps ≠ stackOpsReordered ∧
      ∃ t t', Table.build stackOps = .ok t ∧ Table.build stackOpsReordered = .ok t' ∧
        t.source = t'.source := by
  have hreorders : stackOps.Reorders stackOpsReordered := ⟨rfl, by decide, by decide⟩
  obtain ⟨hboth, hsource⟩ := source_eq_of_reorders hreorders
  obtain ⟨t, ht⟩ := Table.exists_build_of_consistent (d := stackOps) (by decide)
  obtain ⟨t', ht'⟩ := hboth.mp ⟨t, ht⟩
  exact ⟨hreorders, by decide, t, t', ht, ht', hsource t t' ht ht'⟩

-- Of two definitions of a byte, the fault names first the one that is written first.
example :
    Table.build ⟨[], [⟨0x01, "ADD", []⟩, ⟨0x01, "PLUS", []⟩], []⟩ =
        .error (.redefined 0x01 "ADD" "PLUS") ∧
      Table.build ⟨[], [⟨0x01, "PLUS", []⟩, ⟨0x01, "ADD", []⟩], []⟩ =
        .error (.redefined 0x01 "PLUS" "ADD") := by
  decide +kernel

end EvmBlocks.Isa
