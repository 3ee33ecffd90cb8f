import EvmBlocks.Proofs.Grouping

/-!
# EvmBlocks.Proofs.Spacing

Instructions with gaps between them, and the blocks that their groups cover.

`Spaced start is` says that the instructions `is` lie one behind another from
`start` on, without an overlap; where they also lie without a gap, they tile
(`Spaced.of_tiles`).  A gap belongs to the block of the instruction behind it,
unless that is a block start, which leaves the gap in no block: `Block.cover` is
the block of one group, and `Block.covers` are those of groups behind one another.
The offsets that no block contains are those in gaps in front of block starts
(`contains_covers_iff_not_inGap`).
-/

namespace EvmBlocks

/-! ## spaced instructions -/

/-- The instructions lie one behind another from `start` on, perhaps with gaps. -/
def Spaced : Nat → List Instruction → Prop
  | _, [] => True
  | start, i :: is => start ≤ i.offset ∧ Spaced i.stop is

/-- The end of the last instruction, or `start` if there is none. -/
def finalStop : Nat → List Instruction → Nat
  | start, [] => start
  | _, i :: is => finalStop i.stop is

section Spaced

variable {start : Nat} {is xs ys : List Instruction} {i : Instruction}

@[simp] theorem spaced_nil : Spaced start [] := trivial

@[simp] theorem spaced_cons :
    Spaced start (i :: is) ↔ start ≤ i.offset ∧ Spaced i.stop is := Iff.rfl

@[simp] theorem finalStop_nil : finalStop start [] = start := rfl

@[simp] theorem finalStop_cons : finalStop start (i :: is) = finalStop i.stop is := rfl

theorem finalStop_append : finalStop start (xs ++ ys) = finalStop (finalStop start xs) ys := by
  induction xs generalizing start with
  | nil => rfl
  | cons i xs ih => simp [ih]

theorem finalStop_of_getLast? (h : is.getLast? = some i) : finalStop start is = i.stop := by
  obtain ⟨xs, rfl⟩ := List.getLast?_eq_some_iff.mp h
  simp [finalStop_append]

theorem spaced_append :
    Spaced start (xs ++ ys) ↔ Spaced start xs ∧ Spaced (finalStop start xs) ys := by
  induction xs generalizing start with
  | nil => simp
  | cons i xs ih => simp [ih, and_assoc]

theorem Spaced.le_finalStop (h : Spaced start is) : start ≤ finalStop start is := by
  induction is generalizing start with
  | nil => simp
  | cons i is ih =>
      have hi := i.offset_lt_stop
      have his := ih h.2
      have hstart := h.1
      simp only [finalStop_cons]
      omega

theorem Spaced.bounds (h : Spaced start is) :
    ∀ i ∈ is, start ≤ i.offset ∧ i.stop ≤ finalStop start is := by
  induction is generalizing start with
  | nil => simp
  | cons j is ih =>
      obtain ⟨hj, his⟩ := spaced_cons.mp h
      have hlt := j.offset_lt_stop
      simp only [finalStop_cons, List.forall_mem_cons]
      refine ⟨⟨hj, his.le_finalStop⟩, fun i hi => ?_⟩
      have hbounds := ih his i hi
      omega

/-- Instructions of which each ends before the next begins are spaced. -/
theorem spaced_of_isChain (h : is.IsChain fun i j => i.stop ≤ j.offset)
    (hstart : ∀ i ∈ is.head?, start ≤ i.offset) : Spaced start is := by
  induction is generalizing start with
  | nil => trivial
  | cons i is ih =>
      obtain ⟨hnext, his⟩ := List.isChain_cons.mp h
      exact ⟨hstart i rfl, ih his hnext⟩

/-- Tiling instructions are spaced. -/
theorem Spaced.of_tiles {stop : Nat} (h : Tiles start is stop) :
    Spaced start is ∧ finalStop start is = stop := by
  induction is generalizing start with
  | nil => simpa using h
  | cons i is ih =>
      obtain ⟨hi, his⟩ := tiles_cons.mp h
      simp [hi, ih his]

end Spaced

/-! ## covered blocks -/

namespace Block

/-- Where the block of a group behind `start` begins: at its first instruction if that
is a block start, and else at `start`. -/
def lead (start : Nat) : List Instruction → Nat
  | [] => start
  | i :: _ => if i.opcode.isBlockStart then i.offset else start

/-- The block of a group behind `start`. -/
def cover (start : Nat) (g : List Instruction) : Block := ⟨lead start g, finalStop start g⟩

/-- The blocks of groups behind one another. -/
def covers : Nat → List (List Instruction) → List Block
  | _, [] => []
  | start, g :: gs => cover start g :: covers (finalStop start g) gs

variable {start : Nat} {g : List Instruction} {gs : List (List Instruction)} {i : Instruction}

theorem lead_append (hne : g ≠ []) (is : List Instruction) :
    lead start (g ++ is) = lead start g := by
  cases g with
  | nil => contradiction
  | cons i g => rfl

/-- The block of a group that begins right at `start` is what the group spans. -/
theorem cover_of_tiles {stop : Nat} (h : Tiles start g stop) (hne : g ≠ []) :
    cover start g = span g := by
  have hlead : lead start g = start := by
    cases g with
    | nil => rfl
    | cons i g =>
        obtain ⟨hi, -⟩ := tiles_cons.mp h
        simp [lead, hi]
  rw [cover, hlead, (Spaced.of_tiles h).2, h.span_eq hne]

theorem covers_of_tiles {stop : Nat} (h : Tiles start gs.flatten stop) (hne : [] ∉ gs) :
    covers start gs = gs.map span := by
  induction gs generalizing start with
  | nil => rfl
  | cons g gs ih =>
      rw [List.mem_cons, not_or] at hne
      obtain ⟨mid, hg, hgs⟩ := tiles_append.mp h
      rw [covers, cover_of_tiles hg (Ne.symm hne.1), (Spaced.of_tiles hg).2, ih hgs hne.2,
        List.map_cons]

end Block

/-- The offset lies in a gap that no block covers: in front of a block start, and behind
the end of the instruction before it, or `start` if there is none. -/
def InGap : Nat → List Instruction → Nat → Prop
  | _, [], _ => False
  | start, i :: is, offset =>
      i.opcode.isBlockStart = true ∧ start ≤ offset ∧ offset < i.offset ∨ InGap i.stop is offset

section InGap

variable {start offset : Nat} {is xs ys : List Instruction}

theorem inGap_append :
    InGap start (xs ++ ys) offset ↔
      InGap start xs offset ∨ InGap (finalStop start xs) ys offset := by
  induction xs generalizing start with
  | nil => simp [InGap]
  | cons i xs ih => simp [InGap, ih, or_assoc]

theorem InGap.bounds (h : InGap start is offset) (his : Spaced start is) :
    start ≤ offset ∧ offset < finalStop start is := by
  induction is generalizing start with
  | nil => exact h.elim
  | cons i is ih =>
      obtain ⟨hi, his⟩ := spaced_cons.mp his
      have hlt := i.offset_lt_stop
      have hle := his.le_finalStop
      rw [finalStop_cons]
      obtain ⟨-, hstart, hoffset⟩ | hrest := h
      · omega
      · have hbounds := ih hrest his
        omega

/-- Without block starts, there are no gaps that no block covers. -/
theorem not_inGap (h : ∀ i ∈ is, i.opcode.isBlockStart = false) : ¬ InGap start is offset := by
  induction is generalizing start with
  | nil => simp [InGap]
  | cons i is ih =>
      obtain ⟨hi, his⟩ := List.forall_mem_cons.mp h
      simp [InGap, hi, ih his]

end InGap

namespace Block

/-! ## the block of one group -/

section Cover

variable {start : Nat} {g : List Instruction} {i : Instruction}

theorem start_le_lead (h : Spaced start g) : start ≤ lead start g := by
  cases g with
  | nil => exact Nat.le_refl start
  | cons i g =>
      have hi := h.1
      simp only [lead]
      split <;> omega

theorem lead_le_offset (h : Spaced start g) (hi : i ∈ g) : lead start g ≤ i.offset := by
  cases g with
  | nil => contradiction
  | cons j g =>
      have hj := j.offset_lt_stop
      have hstart := h.1
      cases List.mem_cons.mp hi with
      | inl heq =>
          subst heq
          simp only [lead]
          split <;> omega
      | inr hmem =>
          have hbounds := h.2.bounds i hmem
          simp only [lead]
          split <;> omega

theorem lead_lt_finalStop (h : Spaced start g) (hne : g ≠ []) :
    lead start g < finalStop start g := by
  obtain ⟨i, hi⟩ := List.exists_mem_of_ne_nil g hne
  have hlead := lead_le_offset h hi
  have hbounds := h.bounds i hi
  have hlt := i.offset_lt_stop
  omega

variable (hchain : g.IsChain fun i j => i.joins j = true)

include hchain

/-- A block start is where the block of its group starts. -/
theorem offset_eq_lead (hi : i ∈ g) (hs : i.opcode.isBlockStart = true) :
    i.offset = lead start g := by
  cases g with
  | nil => contradiction
  | cons j g =>
      cases List.mem_cons.mp hi with
      | inl heq => simp [lead, ← heq, hs]
      | inr hmem => simp [isBlockStart_eq_false_of_mem hchain hmem] at hs

/-- A block end is where the block of its group stops. -/
theorem stop_eq_finalStop (hi : i ∈ g) (he : i.opcode.isBlockEnd = true) :
    i.stop = finalStop start g := by
  obtain rfl | ⟨xs, last, rfl⟩ := List.eq_nil_or_concat g
  · contradiction
  · rw [List.concat_eq_append] at hchain hi ⊢
    rw [List.mem_append, List.mem_singleton] at hi
    cases hi with
    | inl hmem =>
        have hmem' : i ∈ (xs ++ [last]).dropLast := by simpa using hmem
        simp [isBlockEnd_eq_false_of_mem_dropLast hchain hmem'] at he
    | inr heq => simp [finalStop_append, heq]

/-- The only gap that the block of a group does not cover is the one in front of the
block. -/
theorem inGap_iff_lt_lead {offset : Nat} (hle : start ≤ offset) :
    InGap start g offset ↔ offset < lead start g := by
  cases g with
  | nil => simpa [InGap, lead] using hle
  | cons i g =>
      have hrest : ¬ InGap i.stop g offset :=
        not_inGap fun j hj => isBlockStart_eq_false_of_mem hchain hj
      cases hs : i.opcode.isBlockStart <;> simp [InGap, lead, hs, hrest, hle]

end Cover

/-! ## the blocks of all groups -/

section Covers

variable {start : Nat} {gs : List (List Instruction)}
  (hgs : ∀ g ∈ gs, g ≠ [] ∧ g.IsChain fun i j => i.joins j = true)
  (h : Spaced start gs.flatten)

include hgs h

/-- The blocks have offsets and lie behind `start`. -/
theorem bounds_of_mem_covers : ∀ b ∈ covers start gs, start ≤ b.start ∧ b.start < b.stop := by
  induction gs generalizing start with
  | nil => simp [covers]
  | cons g gs ih =>
      obtain ⟨⟨hne, -⟩, hgs⟩ := List.forall_mem_cons.mp hgs
      obtain ⟨hg, hrest⟩ := spaced_append.mp h
      have hle := hg.le_finalStop
      simp only [covers, List.forall_mem_cons]
      refine ⟨⟨start_le_lead hg, lead_lt_finalStop hg hne⟩, fun b hb => ?_⟩
      have hbounds := ih hgs hrest b hb
      omega

/-- Each block stops before the next one starts. -/
theorem pairwise_covers : (covers start gs).Pairwise fun b b' => b.stop ≤ b'.start := by
  induction gs generalizing start with
  | nil => simp [covers]
  | cons g gs ih =>
      obtain ⟨-, hgs⟩ := List.forall_mem_cons.mp hgs
      obtain ⟨-, hrest⟩ := spaced_append.mp h
      rw [covers, List.pairwise_cons]
      exact ⟨fun b hb => (bounds_of_mem_covers hgs hrest b hb).1, ih hgs hrest⟩

/-- Each instruction lies in a block, a block start at its start and a block end at its
end. -/
theorem exists_cover_of_mem : ∀ i ∈ gs.flatten, ∃ b ∈ covers start gs,
    (b.start ≤ i.offset ∧ i.stop ≤ b.stop) ∧ (i.opcode.isBlockStart = true → b.start = i.offset) ∧
      (i.opcode.isBlockEnd = true → b.stop = i.stop) := by
  induction gs generalizing start with
  | nil => simp
  | cons g gs ih =>
      obtain ⟨⟨-, hchain⟩, hgs⟩ := List.forall_mem_cons.mp hgs
      obtain ⟨hg, hrest⟩ := spaced_append.mp h
      intro i hi
      rw [List.flatten_cons, List.mem_append] at hi
      simp only [covers, List.exists_mem_cons_iff]
      cases hi with
      | inl hmem =>
          exact .inl ⟨⟨lead_le_offset hg hmem, (hg.bounds i hmem).2⟩,
            fun hs => (offset_eq_lead hchain hmem hs).symm,
            fun he => (stop_eq_finalStop hchain hmem he).symm⟩
      | inr hmem => exact .inr (ih hgs hrest i hmem)

/-- Up to the end of the last instruction, the offsets in no block are those in a gap in
front of a block start. -/
theorem contains_covers_iff_not_inGap {offset : Nat} (hle : start ≤ offset)
    (hlt : offset < finalStop start gs.flatten) :
    (∃ b ∈ covers start gs, b.contains offset = true) ↔ ¬ InGap start gs.flatten offset := by
  induction gs generalizing start with
  | nil =>
      simp only [List.flatten_nil, finalStop_nil] at hlt
      omega
  | cons g gs ih =>
      obtain ⟨⟨-, hchain⟩, hgs⟩ := List.forall_mem_cons.mp hgs
      obtain ⟨hg, hrest⟩ := spaced_append.mp h
      rw [List.flatten_cons, finalStop_append] at hlt
      have hlead := inGap_iff_lt_lead hchain hle
      rw [covers, List.exists_mem_cons_iff, contains_iff, List.flatten_cons, inGap_append, hlead]
      simp only [cover]
      by_cases hin : offset < finalStop start g
      · -- The offset is in front of the blocks and the gaps of the other groups.
        have hblocks : ¬ ∃ b ∈ covers (finalStop start g) gs, b.contains offset = true := by
          intro ⟨b, hb, hcontains⟩
          have hbounds := bounds_of_mem_covers hgs hrest b hb
          have hoffset := (contains_iff b offset).mp hcontains
          omega
        have hgaps : ¬ InGap (finalStop start g) gs.flatten offset := by
          intro hgap
          have hbounds := hgap.bounds hrest
          omega
        simp [hin, hblocks, hgaps]
      · have hbefore := start_le_lead hg
        have hfront : ¬ offset < lead start g := by
          intro hfront
          have hbounds := (hlead.mpr hfront).bounds hg
          omega
        rw [ih hgs hrest (Nat.le_of_not_lt hin) hlt]
        simp [hin, hfront]

end Covers

theorem getLast?_covers (start : Nat) {gs : List (List Instruction)} (hne : gs ≠ []) :
    ∃ b, (covers start gs).getLast? = some b ∧ b.stop = finalStop start gs.flatten := by
  induction gs generalizing start with
  | nil => contradiction
  | cons g gs ih =>
      cases gs with
      | nil => exact ⟨cover start g, rfl, by simp [cover]⟩
      | cons g' gs =>
          obtain ⟨b, hb, hstop⟩ := ih (finalStop start g) (List.cons_ne_nil g' gs)
          refine ⟨b, ?_, by rw [hstop, ← finalStop_append, ← List.flatten_cons]⟩
          rw [covers, List.getLast?_cons, hb]
          rfl

/-- Of blocks that lie one behind another, at most one contains an offset. -/
theorem eq_of_contains {bs : List Block} {b b' : Block} {offset : Nat}
    (h : bs.Pairwise fun b b' => b.stop ≤ b'.start) (hb : b ∈ bs) (hb' : b' ∈ bs)
    (hc : b.contains offset = true) (hc' : b'.contains offset = true) : b = b' := by
  rw [contains_iff] at hc hc'
  have happart : bs.Pairwise fun b b' => b.stop ≤ b'.start ∨ b'.stop ≤ b.start := h.imp .inl
  have hsymm : Std.Symm fun b b' : Block => b.stop ≤ b'.start ∨ b'.stop ≤ b.start :=
    ⟨fun _ _ => Or.symm⟩
  by_contra hne
  have hstop := happart.forall hb hb' hne
  omega

end Block

end EvmBlocks
