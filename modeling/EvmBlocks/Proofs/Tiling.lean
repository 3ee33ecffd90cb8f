import EvmBlocks.Block
import EvmBlocks.Instruction
import Mathlib.Data.List.Chain

/-!
# EvmBlocks.Proofs.Tiling

Ranges of offsets laid side by side.

`Block.Contiguous start bs stop` says that the blocks `bs` follow one another
without a gap or an overlap from `start` up to `stop`.  Instructions *tile* a
range when the ranges that they occupy are contiguous in it.  The blocks
spanned by consecutive groups of tiling instructions are contiguous again,
which is how the layout of the instructions becomes the layout of the blocks.
-/

namespace EvmBlocks

namespace Block

/-! ## contiguous blocks -/

/-- The blocks follow one another from `start` up to `stop`. -/
def Contiguous : Nat → List Block → Nat → Prop
  | start, [], stop => start = stop
  | start, b :: bs, stop => b.start = start ∧ Contiguous b.stop bs stop

instance decidableContiguous :
    (start : Nat) → (bs : List Block) → (stop : Nat) → Decidable (Contiguous start bs stop)
  | start, [], stop => inferInstanceAs (Decidable (start = stop))
  | start, b :: bs, stop =>
      have := decidableContiguous b.stop bs stop
      inferInstanceAs (Decidable (b.start = start ∧ Contiguous b.stop bs stop))

/-- The blocks between consecutive points of a list. -/
def between : List Nat → List Block
  | a :: b :: points => ⟨a, b⟩ :: between (b :: points)
  | _ => []

variable {bs xs ys : List Block} {start stop : Nat}

theorem contiguous_append :
    Contiguous start (xs ++ ys) stop ↔
      ∃ mid, Contiguous start xs mid ∧ Contiguous mid ys stop := by
  induction xs generalizing start with
  | nil => simp [Contiguous]
  | cons b xs ih =>
      rw [List.cons_append, Contiguous, ih]
      constructor
      · rintro ⟨hb, mid, hxs, hys⟩
        exact ⟨mid, ⟨hb, hxs⟩, hys⟩
      · rintro ⟨mid, ⟨hb, hxs⟩, hys⟩
        exact ⟨hb, mid, hxs, hys⟩

/-- Contiguous blocks are the blocks between their starts and the final stop. -/
theorem between_starts (h : Contiguous start bs stop) :
    between (bs.map Block.start ++ [stop]) = bs := by
  induction bs generalizing start with
  | nil => rfl
  | cons b bs ih =>
      obtain ⟨-, hbs⟩ := h
      cases bs with
      | nil =>
          have hstop : b.stop = stop := hbs
          simp [between, ← hstop]
      | cons b' bs =>
          have hb' : b'.start = b.stop := hbs.1
          have hrest := ih hbs
          simp only [List.map_cons, List.cons_append, between] at hrest ⊢
          rw [hrest, hb']

/-- Blocks that do not stop before they start and are contiguous from `start`
begin at `start` or later, and the range they fill does not end before `start`. -/
theorem start_le_of_contiguous (h : Contiguous start bs stop)
    (hle : ∀ b ∈ bs, b.start ≤ b.stop) :
    ∀ point ∈ bs.map Block.start ++ [stop], start ≤ point := by
  induction bs generalizing start with
  | nil =>
      have hstop : start = stop := h
      simp [hstop]
  | cons b bs ih =>
      obtain ⟨rfl, hbs⟩ := h
      have hb := hle b List.mem_cons_self
      have hrest := ih hbs fun b' hb' => hle b' (List.mem_cons_of_mem b hb')
      intro point hpoint
      rw [List.map_cons, List.cons_append, List.mem_cons] at hpoint
      cases hpoint with
      | inl heq => omega
      | inr hmem => exact Nat.le_trans hb (hrest point hmem)

/-- The starts of contiguous blocks with offsets, and the final stop, ascend
strictly. -/
theorem pairwise_starts (h : Contiguous start bs stop) (hpos : ∀ b ∈ bs, b.start < b.stop) :
    (bs.map Block.start ++ [stop]).Pairwise (· < ·) := by
  induction bs generalizing start with
  | nil => exact List.pairwise_singleton _ _
  | cons b bs ih =>
      obtain ⟨-, hbs⟩ := h
      have hb := hpos b List.mem_cons_self
      have hpos' : ∀ b' ∈ bs, b'.start < b'.stop :=
        fun b' hb' => hpos b' (List.mem_cons_of_mem b hb')
      have hle : ∀ b' ∈ bs, b'.start ≤ b'.stop := fun b' hb' => Nat.le_of_lt (hpos' b' hb')
      rw [List.map_cons, List.cons_append, List.pairwise_cons]
      refine ⟨fun point hpoint => ?_, ih hbs hpos'⟩
      exact Nat.lt_of_lt_of_le hb (start_le_of_contiguous hbs hle point hpoint)

end Block

/-! ## tiling instructions -/

/-- The offsets that an instruction occupies. -/
def Instruction.extent (i : Instruction) : Block := ⟨i.offset, i.stop⟩

/-- The instructions lie side by side from `start` up to `stop`: the first is
at `start`, each ends where the next begins, and the last ends at `stop`. -/
def Tiles (start : Nat) (is : List Instruction) (stop : Nat) : Prop :=
  Block.Contiguous start (is.map Instruction.extent) stop

instance (start : Nat) (is : List Instruction) (stop : Nat) : Decidable (Tiles start is stop) :=
  inferInstanceAs (Decidable (Block.Contiguous _ _ _))

theorem Instruction.offset_lt_stop (i : Instruction) : i.offset < i.stop := by
  unfold stop size
  omega

variable {is xs ys : List Instruction} {start stop : Nat}

@[simp] theorem tiles_nil : Tiles start [] stop ↔ start = stop := Iff.rfl

@[simp] theorem tiles_cons {i : Instruction} :
    Tiles start (i :: is) stop ↔ i.offset = start ∧ Tiles i.stop is stop := Iff.rfl

theorem tiles_append :
    Tiles start (xs ++ ys) stop ↔ ∃ mid, Tiles start xs mid ∧ Tiles mid ys stop := by
  unfold Tiles
  rw [List.map_append]
  exact Block.contiguous_append

theorem Tiles.le (h : Tiles start is stop) : start ≤ stop := by
  induction is generalizing start with
  | nil => exact Nat.le_of_eq h
  | cons i is ih =>
      obtain ⟨rfl, his⟩ := tiles_cons.mp h
      exact Nat.le_trans (Nat.le_of_lt i.offset_lt_stop) (ih his)

/-- Tiling instructions stay inside the range that they tile. -/
theorem Tiles.bounds (h : Tiles start is stop) :
    ∀ i ∈ is, start ≤ i.offset ∧ i.stop ≤ stop := by
  induction is generalizing start with
  | nil => simp
  | cons j is ih =>
      obtain ⟨rfl, his⟩ := tiles_cons.mp h
      intro i hi
      cases List.mem_cons.mp hi with
      | inl heq =>
          subst heq
          exact ⟨Nat.le_refl _, his.le⟩
      | inr hmem =>
          have hbounds := ih his i hmem
          exact ⟨Nat.le_trans (Nat.le_of_lt j.offset_lt_stop) hbounds.1, hbounds.2⟩

/-- The first of some tiling instructions is where the range starts. -/
theorem Tiles.offset_head (h : Tiles start is stop) :
    ∀ i ∈ is.head?, i.offset = start := by
  cases is with
  | nil => simp
  | cons i is =>
      obtain ⟨hi, -⟩ := tiles_cons.mp h
      simpa using hi

/-- The last of some tiling instructions ends where the range stops. -/
theorem Tiles.stop_getLast (h : Tiles start is stop) :
    ∀ i ∈ is.getLast?, i.stop = stop := by
  intro i hi
  obtain ⟨xs, rfl⟩ := List.getLast?_eq_some_iff.mp hi
  obtain ⟨mid, -, hlast⟩ := tiles_append.mp h
  exact (tiles_cons.mp hlast).2

/-- Each of some tiling instructions ends where the next one begins. -/
theorem Tiles.isChain (h : Tiles start is stop) :
    is.IsChain fun i j => i.stop = j.offset := by
  induction is generalizing start with
  | nil => exact List.isChain_nil
  | cons i is ih =>
      obtain ⟨-, his⟩ := tiles_cons.mp h
      cases is with
      | nil => exact List.isChain_singleton i
      | cons j is =>
          obtain ⟨hj, -⟩ := tiles_cons.mp his
          exact List.isChain_cons_cons.mpr ⟨hj.symm, ih his⟩

/-- Tiling instructions have as many bytes as their range has offsets. -/
theorem Tiles.add_length_encode (h : Tiles start is stop) :
    start + (is.flatMap Instruction.encode).length = stop := by
  induction is generalizing start with
  | nil => simpa using h
  | cons i is ih =>
      obtain ⟨rfl, his⟩ := tiles_cons.mp h
      have hrest := ih his
      rw [List.flatMap_cons, List.length_append, i.length_encode, ← Nat.add_assoc]
      exact hrest

/-! ## spans -/

/-- The block from the first to the last of some instructions. -/
def Block.span : List Instruction → Block
  | [] => ⟨0, 0⟩
  | i :: is => ⟨i.offset, ((i :: is).getLast (List.cons_ne_nil i is)).stop⟩

theorem Block.span_of_ne_nil (h : is ≠ []) :
    Block.span is = ⟨(is.head h).offset, (is.getLast h).stop⟩ := by
  cases is with
  | nil => contradiction
  | cons i is => rfl

/-- Two runs of instructions taken together span from the start of the first to
the end of the second. -/
theorem Block.span_append (hxs : xs ≠ []) (hys : ys ≠ []) :
    Block.span (xs ++ ys) = ⟨(Block.span xs).start, (Block.span ys).stop⟩ := by
  rw [Block.span_of_ne_nil (List.append_ne_nil_of_left_ne_nil hxs ys),
    Block.span_of_ne_nil hxs, Block.span_of_ne_nil hys, List.head_append_of_ne_nil hxs,
    List.getLast_append_of_ne_nil _ hys]

/-- Tiling instructions span the range that they tile. -/
theorem Tiles.span_eq (h : Tiles start is stop) (hne : is ≠ []) :
    Block.span is = ⟨start, stop⟩ := by
  rw [Block.span_of_ne_nil hne, h.offset_head _ (List.head?_eq_some_head hne),
    h.stop_getLast _ (List.getLast?_eq_some_getLast hne)]

/-- Some tiling instructions fill a range that has offsets. -/
theorem Tiles.lt (h : Tiles start is stop) (hne : is ≠ []) : start < stop := by
  cases is with
  | nil => contradiction
  | cons i is =>
      obtain ⟨rfl, his⟩ := tiles_cons.mp h
      exact Nat.lt_of_lt_of_le i.offset_lt_stop his.le

/-- The spans of consecutive groups of tiling instructions are contiguous and
have offsets. -/
theorem Tiles.contiguous_spans {gs : List (List Instruction)}
    (h : Tiles start gs.flatten stop) (hne : [] ∉ gs) :
    Block.Contiguous start (gs.map Block.span) stop ∧
      ∀ b ∈ gs.map Block.span, b.start < b.stop := by
  induction gs generalizing start with
  | nil => exact ⟨h, by simp⟩
  | cons g gs ih =>
      rw [List.mem_cons, not_or] at hne
      rw [List.flatten_cons, tiles_append] at h
      obtain ⟨mid, hg, hgs⟩ := h
      obtain ⟨hrest, hpos⟩ := ih hgs hne.2
      have hspan := hg.span_eq (Ne.symm hne.1)
      rw [List.map_cons, hspan]
      refine ⟨⟨rfl, hrest⟩, ?_⟩
      intro b hb
      cases List.mem_cons.mp hb with
      | inl heq => rw [heq]; exact hg.lt (Ne.symm hne.1)
      | inr hmem => exact hpos b hmem

end EvmBlocks
