import EvmBlocks.Block.Segment
import EvmBlocks.Proofs.InstructionMap
import EvmBlocks.Proofs.Spacing

/-!
# EvmBlocks.Proofs.Segment

The segmenter finds the blocks that the groups of the instructions cover.

A map without faults is visited entry by entry, and visiting is a function of
the instruction alone (`Segmenter.visit`).  `Segmenter.Follows` relates the
state to the last block that was begun, which may be finished or open; it
holds after the first instruction, and every further instruction keeps it with
the block that it is entered in (`Segmenter.follows_visit`).  Along the groups
of spaced instructions this gives the blocks of a whole run
(`Segmenter.found_finish`); the blocks of tiling instructions are what their
groups span (`Segmenter.found_finish_of_tiles`).
-/

namespace EvmBlocks

namespace Segmenter

/-! ## the operations on the state -/

@[simp] theorem found_emit (s : Segmenter) (b : Block) : (s.emit b).found = b :: s.found := rfl

@[simp] theorem current_cutAt (s : Segmenter) (start : Nat) :
    (s.cutAt start).current = ⟨start, none⟩ := rfl

@[simp] theorem found_cutAt (s : Segmenter) (start : Nat) :
    (s.cutAt start).found = s.close.found := rfl

@[simp] theorem current_extendTo (s : Segmenter) (stop : Nat) :
    (s.extendTo stop).current = ⟨s.current.start, some stop⟩ := rfl

@[simp] theorem found_extendTo (s : Segmenter) (stop : Nat) :
    (s.extendTo stop).found = s.found := rfl

/-- A block whose end is unknown is not kept. -/
theorem found_close_of_none {s : Segmenter} {start : Nat} (h : s.current = ⟨start, none⟩) :
    s.close.found = s.found := by
  simp [close, h]

/-- A block with offsets is kept. -/
theorem found_close_of_lt {s : Segmenter} {start stop : Nat}
    (h : s.current = ⟨start, some stop⟩) (hlt : start < stop) :
    s.close.found = ⟨start, stop⟩ :: s.found := by
  simp [close, h, hlt]

/-! ## visits -/

/-- Begins a block at an instruction that is a block start. -/
def enter (s : Segmenter) (i : Instruction) : Segmenter :=
  if i.opcode.isBlockStart then s.cutAt i.offset else s

/-- What an instruction does to the state: it may begin a block, it extends the
open block, and it may finish it. -/
def visit (s : Segmenter) (i : Instruction) : Segmenter :=
  if i.opcode.isBlockEnd then ((s.enter i).extendTo i.stop).cutAt i.stop
  else (s.enter i).extendTo i.stop

/-- An entry that no segmentation stops at: the key is the offset of the
instruction, and the end of the instruction is an offset. -/
def Sound (entry : Nat × Instruction) : Prop :=
  entry.2.offset = entry.1 ∧ entry.2.stop ≤ maxOffset

theorem step_of_sound (s : Segmenter) {key : Nat} {i : Instruction} (h : Sound (key, i)) :
    s.step key i = (s.visit i, none) := by
  obtain ⟨hkey, hstop⟩ := h
  simp only at hkey hstop
  subst hkey
  simp only [step, ne_eq, not_true_eq_false, if_false, Instruction.stop?_of_le hstop]
  rfl

/-- A run gets past sound entries. -/
theorem run_append_of_sound (s : Segmenter) {before : List (Nat × Instruction)}
    (h : ∀ entry ∈ before, Sound entry) (after : List (Nat × Instruction)) :
    s.run (before ++ after) = ((before.map Prod.snd).foldl visit s).run after := by
  induction before generalizing s with
  | nil => rfl
  | cons entry before ih =>
      obtain ⟨key, i⟩ := entry
      rw [List.cons_append, run, step_of_sound s (h (key, i) List.mem_cons_self)]
      exact ih (s.visit i) fun entry' h' => h entry' (List.mem_cons_of_mem (key, i) h')

/-- Sound entries are visited to the last one. -/
theorem run_of_sound (s : Segmenter) {entries : List (Nat × Instruction)}
    (h : ∀ entry ∈ entries, Sound entry) :
    s.run entries = ((entries.map Prod.snd).foldl visit s, none) := by
  have happend := run_append_of_sound s h []
  rwa [List.append_nil] at happend

/-! ## the last block -/

/-- The last block that was begun is `b`, and `before` are the blocks before
it.  If it is finished, it is found, and the open block begins behind it; if
not, it is the open block itself. -/
def Follows (s : Segmenter) (before : List Block) (b : Block) (finished : Bool) : Prop :=
  if finished then s.current = ⟨b.stop, none⟩ ∧ s.found = b :: before
  else s.current = ⟨b.start, some b.stop⟩ ∧ s.found = before

section Follows

variable {s : Segmenter} {before : List Block} {b : Block} {finished : Bool} {i : Instruction}

theorem follows_true :
    s.Follows before b true ↔ s.current = ⟨b.stop, none⟩ ∧ s.found = b :: before := Iff.rfl

theorem follows_false :
    s.Follows before b false ↔ s.current = ⟨b.start, some b.stop⟩ ∧ s.found = before := Iff.rfl

/-- An instruction makes the block in which it is entered reach to its own end. -/
theorem follows_visit {start : Nat} (hstart : (s.enter i).current.start = start)
    (hfound : (s.enter i).found = before) (hlt : start < i.stop) :
    (s.visit i).Follows before ⟨start, i.stop⟩ i.opcode.isBlockEnd := by
  have hcurrent : ((s.enter i).extendTo i.stop).current = ⟨start, some i.stop⟩ := by
    rw [current_extendTo, hstart]
  rw [visit]
  cases i.opcode.isBlockEnd with
  | true =>
      rw [if_pos rfl, follows_true, current_cutAt, found_cutAt, found_close_of_lt hcurrent hlt,
        found_extendTo, hfound]
      exact ⟨rfl, rfl⟩
  | false =>
      rw [if_neg Bool.false_ne_true, follows_false, hcurrent, found_extendTo, hfound]
      exact ⟨rfl, rfl⟩

/-- The first instruction is entered like one behind the start of the code. -/
theorem enter_initial (j : Journal) (i : Instruction) :
    ((initial j).enter i).current.start = Block.lead 0 [i] ∧ ((initial j).enter i).found = [] := by
  by_cases hs : i.opcode.isBlockStart = true <;> simp [enter, hs, initial, close, Block.lead]

/-- A block start is entered at its own offset, with the last block found. -/
theorem enter_of_isBlockStart (h : s.Follows before b finished) (hlt : b.start < b.stop)
    (hs : i.opcode.isBlockStart = true) :
    (s.enter i).current.start = i.offset ∧ (s.enter i).found = b :: before := by
  cases finished with
  | true =>
      obtain ⟨hcurrent, hfound⟩ := follows_true.mp h
      simp [enter, hs, found_close_of_none hcurrent, hfound]
  | false =>
      obtain ⟨hcurrent, hfound⟩ := follows_false.mp h
      simp [enter, hs, found_close_of_lt hcurrent hlt, hfound]

/-- Any other instruction is entered behind the last block if that is finished. -/
theorem enter_of_finished (h : s.Follows before b true) (hs : i.opcode.isBlockStart = false) :
    (s.enter i).current.start = b.stop ∧ (s.enter i).found = b :: before := by
  obtain ⟨hcurrent, hfound⟩ := follows_true.mp h
  simp [enter, hs, hcurrent, hfound]

/-- Any other instruction is entered in the last block if that is open. -/
theorem enter_of_open (h : s.Follows before b false) (hs : i.opcode.isBlockStart = false) :
    (s.enter i).current.start = b.start ∧ (s.enter i).found = before := by
  obtain ⟨hcurrent, hfound⟩ := follows_false.mp h
  simp [enter, hs, hcurrent, hfound]

/-- In the end, the last block is found, finished or not. -/
theorem found_finish_of_follows (h : s.Follows before b finished) :
    s.finish.found = b :: before := by
  cases finished with
  | true =>
      obtain ⟨hcurrent, hfound⟩ := follows_true.mp h
      simp [finish, hcurrent, hfound]
  | false =>
      obtain ⟨hcurrent, hfound⟩ := follows_false.mp h
      simp [finish, hcurrent, hfound]

end Follows

/-! ## following the groups -/

/-- An instruction that joins the one before is entered in the block of that
one, and any other behind it, with that block found. -/
theorem enter_of_follows {s : Segmenter} {before : List Block} {b : Block} {i : Instruction}
    (h : s.Follows before b i.opcode.isBlockEnd) (hlt : b.start < b.stop) (i' : Instruction) :
    if i.joins i' then (s.enter i').current.start = b.start ∧ (s.enter i').found = before
    else (s.enter i').current.start = Block.lead b.stop [i'] ∧
      (s.enter i').found = b :: before := by
  by_cases hjoins : i.joins i' = true
  · rw [if_pos hjoins]
    obtain ⟨hend, hs⟩ := Instruction.joins_eq_true_iff.mp hjoins
    rw [hend] at h
    exact enter_of_open h hs
  · rw [if_neg hjoins]
    by_cases hs : i'.opcode.isBlockStart = true
    · simpa [Block.lead, hs] using enter_of_isBlockStart h hlt hs
    · rw [Bool.not_eq_true] at hjoins hs
      have hend : i.opcode.isBlockEnd = true := by
        simpa [hs] using Instruction.joins_eq_false_iff.mp hjoins
      rw [hend] at h
      simpa [Block.lead, hs] using enter_of_finished h hs

/-- **A whole run**, from a state whose last block is that of the group `g` on:
the blocks found are those of `g` and of what comes after it, behind those
before `g`. -/
theorem found_run {s : Segmenter} {before : List Block} {g is : List Instruction}
    {i : Instruction} {start : Nat}
    (h : s.Follows before (Block.cover start g) i.opcode.isBlockEnd)
    (hlast : g.getLast? = some i) (hchain : g.IsChain fun i j => i.joins j = true)
    (hspaced : Spaced start (g ++ is)) :
    (is.foldl visit s).finish.found =
      (Block.covers start (groups (g ++ is))).reverse ++ before := by
  have hne : g ≠ [] := by rintro rfl; contradiction
  induction is generalizing s before g i start with
  | nil =>
      rw [List.foldl_nil, found_finish_of_follows h, List.append_nil, groups_of_isChain hne hchain]
      rfl
  | cons i' is ih =>
      obtain ⟨hg, hrest⟩ := spaced_append.mp hspaced
      have hlt := Block.lead_lt_finalStop hg hne
      have henter := enter_of_follows h hlt i'
      rw [List.foldl_cons]
      by_cases hjoins : i.joins i' = true
      · -- The group grows by one instruction.
        rw [if_pos hjoins] at henter
        have hcover : Block.cover start (g ++ [i']) = ⟨(Block.cover start g).start, i'.stop⟩ := by
          simp [Block.cover, Block.lead_append hne, finalStop_append]
        have hvisit := follows_visit henter.1 henter.2
          (hlt.trans_le (hrest.1.trans i'.offset_lt_stop.le))
        rw [← hcover] at hvisit
        have happend : g ++ i' :: is = g ++ [i'] ++ is := by simp
        rw [happend] at hspaced ⊢
        exact ih hvisit List.getLast?_concat (isChain_concat hchain hlast hjoins) hspaced (by simp)
      · -- The group is complete, and the instruction begins the next one.
        rw [if_neg hjoins] at henter
        have hone : Spaced (finalStop start g) [i'] := ⟨hrest.1, trivial⟩
        have hvisit := follows_visit henter.1 henter.2
          (Block.lead_lt_finalStop hone (List.cons_ne_nil i' []))
        rw [groups_append_cons hne hchain hlast (Bool.eq_false_of_not_eq_true hjoins), Block.covers,
          List.reverse_cons, List.append_assoc, List.singleton_append]
        exact ih hvisit rfl (List.isChain_singleton i') hrest (List.cons_ne_nil i' [])

/-- The blocks found in spaced instructions are those that their groups cover. -/
theorem found_finish (j : Journal) {is : List Instruction} (hne : is ≠ []) (h : Spaced 0 is) :
    (is.foldl visit (initial j)).finish.found = (Block.covers 0 (groups is)).reverse := by
  cases is with
  | nil => contradiction
  | cons i is =>
      obtain ⟨hstart, hfound⟩ := enter_initial j i
      have hone : Spaced 0 [i] := ⟨h.1, trivial⟩
      have hvisit := follows_visit hstart hfound
        (Block.lead_lt_finalStop hone (List.cons_ne_nil i []))
      rw [List.foldl_cons, found_run hvisit rfl (List.isChain_singleton i) h, List.append_nil,
        List.singleton_append]

/-- The blocks found in tiling instructions are the spans of their groups. -/
theorem found_finish_of_tiles (j : Journal) {is : List Instruction} {stop : Nat} (hne : is ≠ [])
    (h : Tiles 0 is stop) :
    (is.foldl visit (initial j)).finish.found = ((groups is).map Block.span).reverse := by
  have hgroups : Tiles 0 (groups is).flatten stop := by rwa [flatten_groups]
  rw [found_finish j hne (Spaced.of_tiles h).1,
    Block.covers_of_tiles hgroups (nil_notMem_groups is)]

end Segmenter

/-! ## segmented maps -/

/-- The blocks that the groups of some instructions span; without instructions,
the one block without offsets. -/
def basicBlocks : List Instruction → List Block
  | [] => [⟨0, 0⟩]
  | i :: is => (groups (i :: is)).map Block.span

theorem basicBlocks_of_ne_nil {is : List Instruction} (h : is ≠ []) :
    basicBlocks is = (groups is).map Block.span := by
  cases is with
  | nil => contradiction
  | cons i is => rfl

namespace InstructionMap

section Sound

variable {m : InstructionMap} (h : ∀ entry ∈ m.entriesInCode, Segmenter.Sound entry)

include h

theorem holds_of_mem_inCode {i : Instruction} (hi : i ∈ m.inCode) : m.Holds i.offset i := by
  obtain ⟨entry, hentry, rfl⟩ := List.mem_map.mp hi
  rw [holds_iff, (h entry hentry).1]
  exact hentry

theorem pairwise_offset_inCode : m.inCode.Pairwise fun i i' => i.offset < i'.offset := by
  refine List.pairwise_map.mpr ((pairwise_entriesInCode m).imp_of_mem ?_)
  intro entry entry' hentry hentry' hlt
  rwa [(h entry hentry).1, (h entry' hentry').1]

end Sound

theorem TilesCode.sound {m : InstructionMap} (h : m.TilesCode) (hlen : m.codeLength ≤ maxOffset) :
    ∀ entry ∈ m.entriesInCode, Segmenter.Sound entry := by
  intro entry hentry
  have hstop := (h.tiles.bounds entry.2 (List.mem_map_of_mem hentry)).2
  exact ⟨(h.key_eq entry hentry).symm, Nat.le_trans hstop hlen⟩

/-- A map without instructions in its code has the one block without offsets. -/
theorem segmentLogged_of_inCode_eq_nil {m : InstructionMap} (h : m.inCode = []) (j : Journal) :
    (m.segmentLogged j).1 = .ok [⟨0, 0⟩] := by
  have hentries : m.entriesInCode = [] := List.map_eq_nil_iff.mp h
  simp [segmentLogged, hentries, Segmenter.run, Segmenter.initial, Segmenter.finish]

/-- The blocks of a map that tiles its code are those of its instructions,
whatever is reported on the way. -/
theorem TilesCode.segmentLogged_eq {m : InstructionMap} (h : m.TilesCode)
    (hlen : m.codeLength ≤ maxOffset) (j : Journal) :
    (m.segmentLogged j).1 = .ok (basicBlocks m.inCode) := by
  by_cases hne : m.inCode = []
  · rw [segmentLogged_of_inCode_eq_nil hne, hne, basicBlocks]
  · have hrun : (Segmenter.initial j).run m.entriesInCode =
        (m.inCode.foldl Segmenter.visit (Segmenter.initial j), none) :=
      Segmenter.run_of_sound (Segmenter.initial j) (h.sound hlen)
    have hfound := Segmenter.found_finish_of_tiles j hne h.tiles
    simp [segmentLogged, hrun, hfound, basicBlocks_of_ne_nil hne]

end InstructionMap

end EvmBlocks
