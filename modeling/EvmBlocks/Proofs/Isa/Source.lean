import EvmBlocks.Isa.Source
import EvmBlocks.Proofs.Isa.Table

/-!
# EvmBlocks.Proofs.Isa.Source

The source text of a table lists what the description of the table defines.

The definitions are listed twice, both times in the order of their bytes: as
constants (`Description.NamedBy`) and as rows (`Description.TabulatedBy`).
-/

namespace EvmBlocks.Isa

/-! ## listed definitions -/

/-- The lines name the opcodes that a description defines, in ascending order. -/
def Description.NamedBy (d : Description) (lines : List String) : Prop :=
  ∃ named : List (UInt8 × String),
    named.Pairwise (fun n n' => n.1 < n'.1) ∧
      (∀ opcode mnemonic, (opcode, mnemonic) ∈ named ↔
        ∃ x, d.Defines x ∧ x.opcode = opcode ∧ x.mnemonic = mnemonic) ∧
      lines = named.map fun n =>
        "    pub const " ++ n.2 ++ ": Opcode = Opcode(" ++ Numeral.hexText 2 n.1.toNat ++ ");"

/-- There is a line for each byte, with the definition of the byte if a description
makes one.  Its flags are a byte with the bits at their first positions. -/
structure Description.TabulatedBy (d : Description) (lines : List String) : Prop where
  length_eq : lines.length = 256
  undefined : ∀ b : UInt8, (∀ x, d.Defines x → x.opcode ≠ b) →
    lines[b.toNat]? = some "    None,"
  defined : ∀ x, d.Defines x → ∃ flags : UInt8,
    (∀ i, flags.toNat.testBit i = true ↔ ∃ name ∈ x.flags, d.flags.idxOf? name = some i) ∧
      lines[x.opcode.toNat]? =
        some ("    Some(OpcodeInfo::new(Opcode(" ++ Numeral.hexText 2 x.opcode.toNat ++ "), \"" ++
          x.mnemonic ++ "\", " ++ toString x.immediateSize ++
          ", OpcodeFlags::from_bits_retain(" ++ Numeral.hexText 2 flags.toNat ++ "))),")

namespace Table

variable {d : Description} {t : Table}

theorem constantLine_eq (r : Row) :
    constantLine r =
      "    pub const " ++ r.mnemonic ++ ": Opcode = Opcode(" ++
        Numeral.hexText 2 r.opcode.toNat ++ ");" := by
  rw [constantLine, Numeral.hexByte_eq_hexText]

theorem Means.namedBy_constantLines (h : t.Means d) : d.NamedBy t.constantLines := by
  refine ⟨t.named.map fun r => (r.opcode, r.mnemonic), ?_, fun opcode mnemonic => ?_, ?_⟩
  · exact List.pairwise_map.mpr h.pairwise_named
  · simp only [List.mem_map, h.mem_named_iff, Prod.mk.injEq]
    constructor
    · rintro ⟨r, hr, rfl, rfl⟩
      obtain ⟨x, hx, hopcode, hrenders⟩ := h.exists_of_row? hr
      exact ⟨x, hx, hopcode, hrenders.mnemonic.symm⟩
    · rintro ⟨x, hx, rfl, rfl⟩
      obtain ⟨r, hr, hrenders⟩ := h.defined x hx
      exact ⟨r, by rwa [hrenders.opcode], hrenders.opcode, hrenders.mnemonic⟩
  · rw [constantLines, List.map_map]
    exact List.map_congr_left fun r _ => constantLine_eq r

theorem getElem?_rowLines (h : t.rows.size = 256) (b : UInt8) :
    t.rowLines[b.toNat]? = some (rowLine (t.row? b)) := by
  simp [rowLines, getElem?_rows h]

theorem rowLine_none : rowLine none = "    None," := rfl

theorem rowLine_some (r : Row) :
    rowLine (some r) =
      "    Some(OpcodeInfo::new(Opcode(" ++ Numeral.hexText 2 r.opcode.toNat ++ "), \"" ++
        r.mnemonic ++ "\", " ++ toString r.immediateSize ++ ", OpcodeFlags::from_bits_retain(" ++
        Numeral.hexText 2 r.flags.bits.toNat ++ ")))," := by
  rw [← Numeral.hexByte_eq_hexText, ← Numeral.hexByte_eq_hexText]
  rfl

theorem Means.tabulatedBy_rowLines (h : t.Means d) : d.TabulatedBy t.rowLines := by
  refine ⟨by simp [rowLines, h.size_rows], fun b hb => ?_, fun x hx => ?_⟩
  · rw [getElem?_rowLines h.size_rows, h.undefined b hb, rowLine_none]
  · obtain ⟨r, hr, hrenders⟩ := h.defined x hx
    refine ⟨r.flags.bits, hrenders.flags, ?_⟩
    rw [getElem?_rowLines h.size_rows, hr, rowLine_some, hrenders.opcode, hrenders.mnemonic,
      hrenders.immediateSize]

/-- The parts of the source text: an opening that declares the flags, the
constants, and the rows. -/
theorem exists_source_eq (t : Table) :
    ∃ opening : List String, opening.length = t.flagNames.length + 9 ∧
      t.source = String.join
        ((opening ++ ["impl Opcode \x7b"] ++ t.constantLines ++
          ["\x7d", "", "static OPCODE_TABLE: [Option<OpcodeInfo>; 256] = ["] ++ t.rowLines ++
          ["];"]).map (· ++ "\n")) := by
  have hlast : ["    \x7d", "\x7d", "", "impl Opcode \x7b"] =
      ["    \x7d", "\x7d", ""] ++ ["impl Opcode \x7b"] := rfl
  refine ⟨?opening, ?length, ?text⟩
  case text => rw [source, sourceLines, hlast, ← List.append_assoc]
  case length => simp [flagLines]

end Table

/-- The table of a description is the one that it means.  Exactly the consistent
descriptions have one; each row renders the definition of its byte; and the source
text names the defined opcodes in ascending order and lists the 256 rows. -/
theorem build_means_description (d : Description) :
    ((∃ t, Table.build d = .ok t) ↔ d.Consistent) ∧
      ∀ t, Table.build d = .ok t → t.Means d ∧
        ∃ opening constants rows : List String,
          opening.length = d.flags.length + 9 ∧ d.NamedBy constants ∧ d.TabulatedBy rows ∧
            t.source = String.join
              ((opening ++ ["impl Opcode \x7b"] ++ constants ++
                ["\x7d", "", "static OPCODE_TABLE: [Option<OpcodeInfo>; 256] = ["] ++ rows ++
                ["];"]).map (· ++ "\n")) := by
  refine ⟨⟨fun ⟨t, ht⟩ => ?_, Table.exists_build_of_consistent⟩, fun t ht => ?_⟩
  · exact (Table.consistent_and_means_of_build ht).1
  · obtain ⟨-, hmeans⟩ := Table.consistent_and_means_of_build ht
    obtain ⟨opening, hlength, hsource⟩ := t.exists_source_eq
    rw [hmeans.flagNames] at hlength
    exact ⟨hmeans, opening, _, _, hlength, hmeans.namedBy_constantLines,
      hmeans.tabulatedBy_rowLines, hsource⟩

/-- A description whose family ends at the last byte, with a flag declared twice and
a template with two placeholders. -/
def lastBytes : Description where
  flags := ["halt", "jump", "halt"]
  entries := [⟨0x56, "JUMP", ["jump"]⟩]
  families := [⟨0xfe, 2, "PUSH\x7bn\x7dX\x7bn\x7d", 2, .ordinal, ["halt"]⟩]

/-- The last byte is the second member of the family: its ordinal is 3, and its flag
is the first one declared. -/
theorem build_means_lastBytes :
    lastBytes.Consistent ∧ ∃ t, Table.build lastBytes = .ok t ∧
      ∃ r, t.row? 0xff = some r ∧ r.mnemonic = "PUSH3X3" ∧ r.immediateSize = 3 ∧
        ∀ i, r.flags.has i = true ↔ i = 0 := by
  have hconsistent : lastBytes.Consistent := by decide
  obtain ⟨t, ht⟩ := (build_means_description lastBytes).1.mpr hconsistent
  obtain ⟨hmeans, -⟩ := (build_means_description lastBytes).2 t ht
  have hname : Template.Fills "PUSH\x7bn\x7dX\x7bn\x7d".toList (toString 3).toList
      "PUSH3X3".toList := Template.fills_iff.mpr (by decide)
  have hindex : 1 < (2 : UInt8).toNat := by decide
  have hlast : lastBytes.Defines ⟨0xff, "PUSH3X3", 3, ["halt"]⟩ :=
    .member (List.mem_singleton.mpr rfl) hindex rfl hname rfl rfl
  have hfirst : lastBytes.flags.idxOf? "halt" = some 0 := by decide
  obtain ⟨r, hr, hrenders⟩ := hmeans.defined _ hlast
  refine ⟨hconsistent, t, ht, r, hr, hrenders.mnemonic, hrenders.immediateSize, fun i => ?_⟩
  rw [hrenders.flags]
  simp [hfirst, eq_comm]

end EvmBlocks.Isa
