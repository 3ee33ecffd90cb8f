import EvmBlocks.Block.Layout
import EvmBlocks.Proofs.Tiling
import Mathlib.Order.Bounds.Basic

/-!
# EvmBlocks.Proofs.Layout

Looking up the block that contains an offset.

A layout answers with one query to the index of starts.  The index holds, for
each start, the last position at which a block has it
(`Block.getElem?_indexStarts`), so the query finds the last of the blocks with
the greatest start that is not beyond the offset (`blockAt?_eq_some_iff`).  Of
blocks that lie one before another this is the only block that can contain the
offset, and the lookup agrees with a search through all blocks
(`blockAt?_of_pairwise`).  `blockAt?_finds_last_greatest_start` puts this
together for blocks in any order.
-/

namespace EvmBlocks

/-! ## the entry with the greatest key -/

/-- Looking for an entry at or below a bound is a search from the end of the
listing. -/
theorem getEntryLE?_eq_find? (t : Std.TreeMap Nat Nat) (bound : Nat) :
    t.getEntryLE? bound = t.toList.reverse.find? fun e => e.1 ≤ bound := by
  have hmodel : t.getEntryLE? bound =
      (Std.DTreeMap.Internal.Impl.getEntryLE? bound t.inner.inner).map fun e => (e.1, e.2) :=
    Std.DTreeMap.Internal.Impl.Const.getEntryLE?_eq_map
  have hlist : t.toList = t.inner.inner.toListModel.map fun e => (e.1, e.2) :=
    Std.DTreeMap.Internal.Impl.Const.toList_eq_toListModel_map
  have hle : ∀ key, (compare key bound).isLE = decide (key ≤ bound) := fun key => by
    rw [Bool.eq_iff_iff, Nat.isLE_compare, decide_eq_true_iff]
  rw [hmodel, Std.DTreeMap.Internal.Impl.getEntryLE?_eq_findRev? t.inner.wf.ordered,
    List.findRev?_eq_find?_reverse, hlist, ← List.map_reverse, List.find?_map]
  simp only [hle, Function.comp_def]

/-- In a descending listing, the first entry that is not beyond a bound has the
greatest key of all those. -/
theorem find?_le_of_descending {xs : List (Nat × Nat)} (bound : Nat) (e : Nat × Nat)
    (h : xs.Pairwise fun a b => b.1 < a.1) :
    xs.find? (fun e => e.1 ≤ bound) = some e ↔
      e ∈ xs ∧ e.1 ≤ bound ∧ ∀ e' ∈ xs, e'.1 ≤ bound → e'.1 ≤ e.1 := by
  induction xs with
  | nil => simp
  | cons x xs ih =>
      obtain ⟨hx, hxs⟩ := List.pairwise_cons.mp h
      by_cases hb : x.1 ≤ bound
      · rw [List.find?_cons_of_pos (by simpa using hb), Option.some.injEq]
        constructor
        · rintro rfl
          refine ⟨List.mem_cons_self, hb, fun e' he' _ => ?_⟩
          cases List.mem_cons.mp he' with
          | inl heq => exact Nat.le_of_eq (congrArg Prod.fst heq)
          | inr hmem => exact Nat.le_of_lt (hx e' hmem)
        · rintro ⟨he, -, hgreatest⟩
          have hle := hgreatest x List.mem_cons_self hb
          cases List.mem_cons.mp he with
          | inl heq => exact heq.symm
          | inr hmem => exact absurd (hx e hmem) (Nat.not_lt.mpr hle)
      · rw [List.find?_cons_of_neg (by simpa using hb), ih hxs]
        grind

/-- The entry found at or below a bound has the greatest key of those that are
not beyond the bound. -/
theorem getEntryLE?_eq_some_iff {t : Std.TreeMap Nat Nat} {bound key value : Nat} :
    t.getEntryLE? bound = some (key, value) ↔
      t[key]? = some value ∧ key ≤ bound ∧ ∀ k ∈ t, k ≤ bound → k ≤ key := by
  have hdescending : t.toList.reverse.Pairwise fun a b => b.1 < a.1 :=
    List.pairwise_reverse.mpr
      (Std.TreeMap.ordered_keys_toList.imp fun hab => Nat.compare_eq_lt.mp hab)
  rw [getEntryLE?_eq_find?, find?_le_of_descending bound _ hdescending]
  simp only [List.mem_reverse, Prod.forall, Std.TreeMap.mem_toList_iff_getElem?_eq_some,
    Std.TreeMap.mem_iff_isSome_getElem?, Option.isSome_iff_exists, forall_exists_index]

namespace Block

/-! ## the index of starts -/

theorem indexStarts_concat (bs : List Block) (b : Block) :
    indexStarts (bs ++ [b]) = (indexStarts bs).insert b.start bs.length := by
  simp [indexStarts, List.zipIdx_append]

/-- The keys of the index are the starts of the blocks. -/
theorem mem_indexStarts {bs : List Block} {start : Nat} :
    start ∈ indexStarts bs ↔ ∃ b ∈ bs, b.start = start := by
  induction bs using List.reverseRecOn with
  | nil => simp [indexStarts]
  | append_singleton bs b ih =>
      rw [indexStarts_concat, Std.TreeMap.mem_insert, ih, Nat.compare_eq_eq]
      simp [or_and_right, exists_or, or_comm]

/-- The blocks of a list with one more at its end, by position. -/
theorem getElem?_concat_eq_some_iff {bs : List Block} {b b' : Block} {id : Nat} :
    (bs ++ [b])[id]? = some b' ↔ bs[id]? = some b' ∨ id = bs.length ∧ b' = b := by
  grind

/-- The index holds the last position at which a block has the start. -/
theorem getElem?_indexStarts {bs : List Block} {start id : Nat} :
    (indexStarts bs)[start]? = some id ↔
      (∃ b, bs[id]? = some b ∧ b.start = start) ∧
        ∀ id' b', bs[id']? = some b' → b'.start = start → id' ≤ id := by
  induction bs using List.reverseRecOn generalizing id with
  | nil => simp [indexStarts]
  | append_singleton bs b ih =>
      have hlt : ∀ id' b', bs[id']? = some b' → id' < bs.length :=
        fun id' b' h => (List.getElem?_eq_some_iff.mp h).1
      rw [indexStarts_concat, Std.TreeMap.getElem?_insert]
      simp only [getElem?_concat_eq_some_iff]
      by_cases hstart : b.start = start
      · -- The new block takes the place of every earlier one with its start.
        rw [hstart, if_pos Std.compare_self, Option.some.injEq]
        constructor
        · rintro rfl
          refine ⟨⟨b, .inr ⟨rfl, rfl⟩, hstart⟩, fun id' b' h _ => ?_⟩
          cases h with
          | inl hold => exact Nat.le_of_lt (hlt id' b' hold)
          | inr hnew => exact Nat.le_of_eq hnew.1
        · rintro ⟨⟨b', h, -⟩, hlast⟩
          have hle := hlast bs.length b (.inr ⟨rfl, rfl⟩) hstart
          cases h with
          | inl hold => exact absurd (hlt id b' hold) (Nat.not_lt.mpr hle)
          | inr hnew => exact hnew.1.symm
      · rw [if_neg (mt Nat.compare_eq_eq.mp hstart), ih]
        grind

/-! ## blocks one before another -/

/-- The first block lies before the second: it neither starts nor stops after
the start of the second. -/
def Before (b b' : Block) : Prop := b.start ≤ b'.start ∧ b.stop ≤ b'.start

instance : DecidableRel Before := fun _ _ => inferInstanceAs (Decidable (_ ∧ _))

instance : Trans Before Before Before where
  trans h h' := ⟨Nat.le_trans h.1 h'.1, Nat.le_trans h.2 h'.1⟩

section Contiguous

variable {bs : List Block} {start stop : Nat}

/-- Contiguous blocks lie one before another. -/
theorem pairwise_before_of_contiguous (h : Contiguous start bs stop)
    (hle : ∀ b ∈ bs, b.start ≤ b.stop) : bs.Pairwise Before := by
  induction bs generalizing start with
  | nil => exact List.Pairwise.nil
  | cons b bs ih =>
      obtain ⟨-, hbs⟩ := h
      have hb := hle b List.mem_cons_self
      have hle' : ∀ b' ∈ bs, b'.start ≤ b'.stop :=
        fun b' hb' => hle b' (List.mem_cons_of_mem b hb')
      refine List.pairwise_cons.mpr ⟨fun b' hb' => ?_, ih hbs hle'⟩
      have hstop : b.stop ≤ b'.start :=
        start_le_of_contiguous hbs hle' b'.start
          (List.mem_append_left _ (List.mem_map_of_mem hb'))
      exact ⟨Nat.le_trans hb hstop, hstop⟩

/-- Contiguous blocks contain the offsets of the range that they fill, and no
others. -/
theorem exists_contains_iff_of_contiguous (h : Contiguous start bs stop)
    (hle : ∀ b ∈ bs, b.start ≤ b.stop) (offset : Nat) :
    (∃ b ∈ bs, b.contains offset = true) ↔ start ≤ offset ∧ offset < stop := by
  induction bs generalizing start with
  | nil =>
      have hstop : start = stop := h
      simp only [List.not_mem_nil, false_and, exists_false, false_iff, not_and, not_lt]
      omega
  | cons b bs ih =>
      obtain ⟨rfl, hbs⟩ := h
      have hb := hle b List.mem_cons_self
      have hle' : ∀ b' ∈ bs, b'.start ≤ b'.stop :=
        fun b' hb' => hle b' (List.mem_cons_of_mem b hb')
      have hstop : b.stop ≤ stop := start_le_of_contiguous hbs hle' stop (by simp)
      rw [List.exists_mem_cons_iff, ih hbs hle', contains_iff]
      omega

end Contiguous

/-- Of blocks that lie one before another, at most one contains an offset. -/
theorem filter_contains_eq_singleton_iff {bs : List Block} {b : Block} {offset : Nat}
    (h : bs.Pairwise Before) :
    bs.filter (fun b => b.contains offset) = [b] ↔ b ∈ bs ∧ b.contains offset = true := by
  have hmem : b ∈ bs.filter (fun b => b.contains offset) ↔ b ∈ bs ∧ b.contains offset = true :=
    List.mem_filter
  have hfound := h.filter fun b => b.contains offset
  have hall : ∀ b' ∈ bs.filter (fun b => b.contains offset), b'.contains offset = true :=
    fun b' hb' => (List.mem_filter.mp hb').2
  rw [← hmem]
  generalize bs.filter (fun b => b.contains offset) = found at hfound hall ⊢
  cases found with
  | nil => simp
  | cons b₁ rest =>
      cases rest with
      | nil => simp [eq_comm]
      | cons b₂ rest =>
          -- Two blocks that contain one offset do not lie one before the other.
          have hstop := ((List.pairwise_cons.mp hfound).1 b₂ List.mem_cons_self).2
          have hb₁ := (contains_iff b₁ offset).mp (hall b₁ (by simp))
          have hb₂ := (contains_iff b₂ offset).mp (hall b₂ (by simp))
          omega

end Block

namespace Layout

/-! ## lookups -/

/-- What one query to the index decides. -/
theorem blockAt?_eq_some_iff_getEntryLE? {bs : List Block} {offset id : Nat} :
    (ofBlocks bs).blockAt? offset = some id ↔
      ∃ start, (Block.indexStarts bs).getEntryLE? offset = some (start, id) ∧
        ∃ b, bs[id]? = some b ∧ b.contains offset = true := by
  cases hentry : (Block.indexStarts bs).getEntryLE? offset with
  | none => simp [blockAt?, ofBlocks, hentry]
  | some entry =>
      obtain ⟨start, id'⟩ := entry
      simp only [blockAt?, ofBlocks, hentry, get?, List.getElem?_toArray, Option.any_eq_true,
        Option.ite_none_right_eq_some, Option.some.injEq, Prod.mk.injEq]
      constructor
      · rintro ⟨hb, rfl⟩
        exact ⟨start, ⟨rfl, rfl⟩, hb⟩
      · rintro ⟨start', ⟨-, rfl⟩, hb⟩
        exact ⟨hb, rfl⟩

/-- A lookup finds the last of the blocks with the greatest start that is not
beyond the offset, if the offset lies in it. -/
theorem blockAt?_eq_some_iff {bs : List Block} {offset id : Nat} :
    (ofBlocks bs).blockAt? offset = some id ↔
      ∃ b, bs[id]? = some b ∧ b.contains offset = true ∧
        ∀ id' b', bs[id']? = some b' → b'.start ≤ offset →
          b'.start < b.start ∨ b'.start = b.start ∧ id' ≤ id := by
  simp only [blockAt?_eq_some_iff_getEntryLE?, getEntryLE?_eq_some_iff,
    Block.getElem?_indexStarts, Block.mem_indexStarts]
  constructor
  · rintro ⟨start, ⟨⟨⟨b', hb', rfl⟩, hlast⟩, -, hgreatest⟩, b, hb, hcontains⟩
    obtain rfl : b' = b := Option.some.inj (hb'.symm.trans hb)
    refine ⟨b', hb, hcontains, fun id₂ b₂ hb₂ hle => ?_⟩
    have hstart := hgreatest b₂.start ⟨b₂, List.mem_of_getElem? hb₂, rfl⟩ hle
    cases Nat.lt_or_eq_of_le hstart with
    | inl hlt => exact .inl hlt
    | inr heq => exact .inr ⟨heq, hlast id₂ b₂ hb₂ heq⟩
  · rintro ⟨b, hb, hcontains, hgreatest⟩
    have hle := ((Block.contains_iff b offset).mp hcontains).1
    refine ⟨b.start, ⟨⟨⟨b, hb, rfl⟩, fun id' b' hb' hstart => ?_⟩, hle, ?_⟩, b, hb, hcontains⟩
    · cases hgreatest id' b' hb' (hstart ▸ hle) with
      | inl hlt => omega
      | inr heq => exact heq.2
    · rintro _ ⟨b', hmem, rfl⟩ hle'
      obtain ⟨id', hb'⟩ := List.mem_iff_getElem?.mp hmem
      cases hgreatest id' b' hb' hle' with
      | inl hlt => exact Nat.le_of_lt hlt
      | inr heq => exact Nat.le_of_eq heq.1

/-- Of blocks that lie one before another, a lookup finds the one that contains
the offset. -/
theorem blockAt?_of_pairwise {bs : List Block} {offset id : Nat}
    (h : bs.Pairwise Block.Before) :
    (ofBlocks bs).blockAt? offset = some id ↔
      ∃ b, bs[id]? = some b ∧ b.contains offset = true := by
  rw [blockAt?_eq_some_iff]
  constructor
  · rintro ⟨b, hb, hcontains, -⟩
    exact ⟨b, hb, hcontains⟩
  · rintro ⟨b, hb, hcontains⟩
    refine ⟨b, hb, hcontains, fun id' b' hb' hle => ?_⟩
    obtain ⟨hid, rfl⟩ := List.getElem?_eq_some_iff.mp hb
    obtain ⟨hid', rfl⟩ := List.getElem?_eq_some_iff.mp hb'
    have hbefore := List.pairwise_iff_getElem.mp h
    rcases Nat.lt_trichotomy id' id with hlt | rfl | hgt
    · have hstart := (hbefore id' id hid' hid hlt).1
      omega
    · exact .inr ⟨rfl, Nat.le_refl _⟩
    · have hstop := (hbefore id id' hid hid' hgt).2
      have hoffset := ((Block.contains_iff _ offset).mp hcontains).2
      omega

/-- Of blocks that lie one before another, a lookup finds what a search from the
first block on finds. -/
theorem blockAt?_eq_findIdx? {bs : List Block} (h : bs.Pairwise Block.Before) (offset : Nat) :
    (ofBlocks bs).blockAt? offset = bs.findIdx? fun b => b.contains offset := by
  ext id
  rw [blockAt?_of_pairwise h, List.findIdx?_eq_some_iff_getElem]
  constructor
  · intro h'
    obtain ⟨b, hb, hcontains⟩ := h'
    obtain ⟨hid, rfl⟩ := List.getElem?_eq_some_iff.mp hb
    refine ⟨hid, hcontains, fun k hk hfound => ?_⟩
    -- The block at an earlier position ends before this one starts.
    have hstop := (List.pairwise_iff_getElem.mp h k id (Nat.lt_trans hk hid) hid hk).2
    simp only [Block.contains_iff] at hcontains hfound
    omega
  · intro h'
    obtain ⟨hid, hcontains, -⟩ := h'
    exact ⟨bs[id], List.getElem?_eq_getElem hid, hcontains⟩

/-- The start that the query finds is the greatest one that is not beyond the
offset, and the position found is the last one at which a block has it. -/
theorem getEntryLE?_starts_iff {bs : List Block} {offset start id : Nat} :
    (ofBlocks bs).starts.getEntryLE? offset = some (start, id) ↔
      IsGreatest {s | s ≤ offset ∧ ∃ b ∈ bs, b.start = s} start ∧
        IsGreatest {k | ∃ b, bs[k]? = some b ∧ b.start = start} id := by
  rw [ofBlocks, getEntryLE?_eq_some_iff, Block.getElem?_indexStarts]
  simp only [Block.mem_indexStarts, IsGreatest, upperBounds, Set.mem_ofPred_eq]
  constructor
  · intro h
    obtain ⟨⟨⟨b, hb, hstart⟩, hlast⟩, hle, hgreatest⟩ := h
    refine ⟨⟨⟨hle, b, List.mem_of_getElem? hb, hstart⟩, ?_⟩, ⟨b, hb, hstart⟩, ?_⟩
    · intro s hs
      exact hgreatest s hs.2 hs.1
    · intro k hk
      obtain ⟨b', hb', hstart'⟩ := hk
      exact hlast k b' hb' hstart'
  · intro h
    obtain ⟨⟨⟨hle, -⟩, hgreatest⟩, hb, hlast⟩ := h
    exact ⟨⟨hb, fun k b' hb' hstart' => hlast ⟨b', hb', hstart'⟩⟩, hle,
      fun s hs hs' => hgreatest ⟨hs', hs⟩⟩

/-- What a lookup finds among blocks of any kind and in any order: the last of the
blocks with the greatest start that is not beyond the offset, if the offset is in
front of its end.  The position that the query gives is one of a block.  If every
block lies before the next one, the lookup agrees with a search through all blocks,
and any block that contains the offset is the one that is found. -/
theorem blockAt?_finds_last_greatest_start (bs : List Block) (offset : Nat) :
    (∀ id, (ofBlocks bs).blockAt? offset = some id ↔
        ∃ start, IsGreatest {s | s ≤ offset ∧ ∃ b ∈ bs, b.start = s} start ∧
          IsGreatest {k | ∃ b, bs[k]? = some b ∧ b.start = start} id ∧
          ∃ b, bs[id]? = some b ∧ offset < b.stop) ∧
      (∀ start id, (ofBlocks bs).starts.getEntryLE? offset = some (start, id) →
        id < (ofBlocks bs).size) ∧
      (bs.IsChain Block.Before →
        (ofBlocks bs).blockAt? offset =
            bs.findIdx? (fun b => b.start ≤ offset ∧ offset < b.stop) ∧
          ∀ k b, bs[k]? = some b → b.start ≤ offset → offset < b.stop →
            (ofBlocks bs).blockAt? offset = some k) := by
  refine ⟨fun id => ?_, fun start id hentry => ?_, fun hchain => ⟨?_, ?_⟩⟩
  · rw [blockAt?_eq_some_iff_getEntryLE?]
    apply exists_congr
    intro start
    rw [← and_assoc, ← getEntryLE?_starts_iff]
    apply and_congr_right
    intro hentry
    -- The block at the position found has the start found, so it is not beyond the offset.
    obtain ⟨⟨⟨hle, -⟩, -⟩, ⟨b, hb, rfl⟩, -⟩ := getEntryLE?_starts_iff.mp hentry
    simp [hb, Block.contains_iff, hle]
  · obtain ⟨-, ⟨b, hb, -⟩, -⟩ := getEntryLE?_starts_iff.mp hentry
    simpa [size] using (List.getElem?_eq_some_iff.mp hb).1
  · rw [blockAt?_eq_findIdx? (List.isChain_iff_pairwise.mp hchain)]
    congr 1
    ext b
    simp [Block.contains]
  · intro k b hb hle hlt
    rw [blockAt?_of_pairwise (List.isChain_iff_pairwise.mp hchain)]
    exact ⟨b, hb, by simp [Block.contains_iff, hle, hlt]⟩

/-- An empty block in front of one with the same start, and a last block that stops
before it starts. -/
theorem blockAt?_finds_last_greatest_start_emptyBlock :
    [(⟨0, 4⟩ : Block), ⟨4, 4⟩, ⟨4, 7⟩, ⟨9, 3⟩].IsChain Block.Before ∧
      (ofBlocks [⟨0, 4⟩, ⟨4, 4⟩, ⟨4, 7⟩, ⟨9, 3⟩]).starts.getEntryLE? 4 = some (4, 2) ∧
      2 < (ofBlocks [⟨0, 4⟩, ⟨4, 4⟩, ⟨4, 7⟩, ⟨9, 3⟩]).size ∧
      (ofBlocks [⟨0, 4⟩, ⟨4, 4⟩, ⟨4, 7⟩, ⟨9, 3⟩]).blockAt? 4 = some 2 := by
  have hchain : [(⟨0, 4⟩ : Block), ⟨4, 4⟩, ⟨4, 7⟩, ⟨9, 3⟩].IsChain Block.Before := by decide
  have hentry : (ofBlocks [⟨0, 4⟩, ⟨4, 4⟩, ⟨4, 7⟩, ⟨9, 3⟩]).starts.getEntryLE? 4 = some (4, 2) := by
    decide +kernel
  obtain ⟨-, hrange, hsearch⟩ :=
    blockAt?_finds_last_greatest_start [⟨0, 4⟩, ⟨4, 4⟩, ⟨4, 7⟩, ⟨9, 3⟩] 4
  exact ⟨hchain, hentry, hrange 4 2 hentry, (hsearch hchain).2 2 ⟨4, 7⟩ rfl (by decide) (by decide)⟩

-- Of overlapping blocks in no order, the one with the greatest start hides the others.
example : (ofBlocks [⟨4, 9⟩, ⟨0, 4⟩, ⟨6, 2⟩, ⟨4, 6⟩]).blockAt? 5 = some 3 ∧
    (ofBlocks [⟨4, 9⟩, ⟨0, 4⟩, ⟨6, 2⟩, ⟨4, 6⟩]).blockAt? 6 = none := by
  decide +kernel

end Layout

end EvmBlocks
