import EvmBlocks.Proofs.Assembly
import Mathlib.Data.List.SplitBy

/-!
# EvmBlocks.Proofs.Grouping

Instructions grouped by the basic blocks that they make up.

Two neighbouring instructions belong to one block unless the first finishes a
block or the second begins one.  `groups` cuts a list of instructions at every
other place, so its groups are the longest runs without a boundary inside.

* `groups_append` and `groups_append_of_joins` say what happens to the groups
  of two lists at the seam between them, and `dropLast_groups_append` that
  nothing happens to the groups in front of it;
* `offset_eq_of_isBlockStart` and `stop_eq_of_isBlockEnd` say where in its
  group a boundary can lie: only at the two ends.
-/

namespace EvmBlocks

/-- The second instruction goes on with the block of the first. -/
def Instruction.joins (i j : Instruction) : Bool :=
  !i.opcode.isBlockEnd && !j.opcode.isBlockStart

theorem Instruction.joins_eq_true_iff {i j : Instruction} :
    i.joins j = true ↔ i.opcode.isBlockEnd = false ∧ j.opcode.isBlockStart = false := by
  simp [joins]

theorem Instruction.joins_eq_false_iff {i j : Instruction} :
    i.joins j = false ↔ i.opcode.isBlockEnd = true ∨ j.opcode.isBlockStart = true := by
  cases hi : i.opcode.isBlockEnd <;> simp [joins, hi]

/-- The instructions of each basic block, in their order. -/
def groups (is : List Instruction) : List (List Instruction) := is.splitBy Instruction.joins

@[simp] theorem flatten_groups (is : List Instruction) : (groups is).flatten = is :=
  List.flatten_splitBy _ is

/-- Every instruction is in a group. -/
theorem mem_iff_exists_group {i : Instruction} {is : List Instruction} :
    i ∈ is ↔ ∃ g ∈ groups is, i ∈ g := by
  rw [← List.mem_flatten, flatten_groups]

theorem nil_notMem_groups (is : List Instruction) : [] ∉ groups is :=
  List.nil_notMem_splitBy _ is

theorem ne_nil_of_mem_groups {is g : List Instruction} (h : g ∈ groups is) : g ≠ [] :=
  fun hnil => nil_notMem_groups is (hnil ▸ h)

theorem groups_ne_nil {is : List Instruction} (h : is ≠ []) : groups is ≠ [] :=
  List.splitBy_ne_nil.mpr h

/-- Inside a group there is no boundary. -/
theorem isChain_of_mem_groups {is g : List Instruction} (h : g ∈ groups is) :
    g.IsChain fun i j => i.joins j = true :=
  List.isChain_of_mem_splitBy h

/-- Between one group and the next there is a boundary. -/
theorem isChain_groups (is : List Instruction) :
    (groups is).IsChain fun g h => ∃ hg hh, (g.getLast hg).joins (h.head hh) = false :=
  List.isChain_getLast_head_splitBy _ is

/-- Instructions without a boundary between them make up one block. -/
theorem groups_of_isChain {is : List Instruction} (hne : is ≠ [])
    (h : is.IsChain fun i j => i.joins j = true) : groups is = [is] :=
  List.splitBy_of_isChain hne h

/-! ## the seam of two lists -/

/-- Across a boundary, the groups of two lists stay apart. -/
theorem groups_append {xs ys : List Instruction}
    (h : ∀ i ∈ xs.getLast?, ∀ j ∈ ys.head?, i.joins j = false) :
    groups (xs ++ ys) = groups xs ++ groups ys :=
  List.splitBy_append h

/-- An instruction that joins the last one of a run goes on with the run. -/
theorem isChain_concat {g : List Instruction} {i i' : Instruction}
    (h : g.IsChain fun i j => i.joins j = true) (hlast : g.getLast? = some i)
    (hjoins : i.joins i' = true) : (g ++ [i']).IsChain fun i j => i.joins j = true := by
  refine List.isChain_append.mpr ⟨h, List.isChain_singleton i', ?_⟩
  simpa [hlast] using hjoins

/-- An instruction that does not join the last one of a run begins the next
group. -/
theorem groups_append_cons {g is : List Instruction} {i i' : Instruction} (hne : g ≠ [])
    (h : g.IsChain fun i j => i.joins j = true) (hlast : g.getLast? = some i)
    (hjoins : i.joins i' = false) : groups (g ++ i' :: is) = g :: groups (i' :: is) := by
  have hseam : ∀ j ∈ g.getLast?, ∀ j' ∈ (i' :: is).head?, j.joins j' = false := by
    simpa [hlast] using hjoins
  rw [groups_append hseam, groups_of_isChain hne h, List.singleton_append]

/-- Without a boundary, the last group of the first list and the first group of
the second become one. -/
theorem groups_append_of_joins {xs ys g h : List Instruction}
    {gs hs : List (List Instruction)} (hxs : groups xs = gs ++ [g]) (hys : groups ys = h :: hs)
    (hj : ∀ i ∈ g.getLast?, ∀ j ∈ h.head?, i.joins j = true) :
    groups (xs ++ ys) = gs ++ (g ++ h) :: hs := by
  obtain ⟨rfl, hxnil, hxchain, hxseam⟩ := List.splitBy_eq_iff.mp hxs
  obtain ⟨rfl, hynil, hychain, hyseam⟩ := List.splitBy_eq_iff.mp hys
  simp only [List.mem_append, List.mem_cons, List.not_mem_nil, or_false, not_or] at hxnil hynil
  refine List.splitBy_eq_iff.mpr ⟨by simp, ?_, ?_, ?_⟩
  · simp only [List.mem_append, List.mem_cons, not_or]
    refine ⟨hxnil.1, ?_, hynil.2⟩
    exact fun hnil => hxnil.2 (List.append_eq_nil_iff.mp hnil.symm).1.symm
  · intro m hm
    simp only [List.mem_append, List.mem_cons] at hm
    obtain hgs | rfl | hhs := hm
    · exact hxchain m (List.mem_append_left _ hgs)
    · refine List.isChain_append.mpr ⟨hxchain g (by simp), hychain h (by simp), hj⟩
    · exact hychain m (List.mem_cons_of_mem h hhs)
  · obtain ⟨hgs, -, hg⟩ := List.isChain_append.mp hxseam
    obtain ⟨hh, hhs⟩ := List.isChain_cons.mp hyseam
    refine List.isChain_append.mpr ⟨hgs, List.isChain_cons.mpr ⟨?_, hhs⟩, ?_⟩
    -- The merged group ends like `h` and begins like `g`.
    · intro m hm
      obtain ⟨hne, hm', hfalse⟩ := hh m hm
      refine ⟨List.append_ne_nil_of_right_ne_nil g hne, hm', ?_⟩
      rw [List.getLast_append_of_ne_nil _ hne]
      exact hfalse
    · intro m hm m' hm'
      cases Option.some.inj hm'
      obtain ⟨hm', hne, hfalse⟩ := hg m hm g rfl
      refine ⟨hm', List.append_ne_nil_of_left_ne_nil hne h, ?_⟩
      rw [List.head_append_of_ne_nil hne]
      exact hfalse

section Ends

variable {xs g : List Instruction} {gs : List (List Instruction)}

theorem ne_nil_of_groups_eq_concat (h : groups xs = gs ++ [g]) : g ≠ [] :=
  ne_nil_of_mem_groups (h ▸ List.mem_concat_self)

theorem ne_nil_of_groups_eq_cons (h : groups xs = g :: gs) : g ≠ [] :=
  ne_nil_of_mem_groups (h ▸ List.mem_cons_self)

/-- A list ends with the last instruction of its last group. -/
theorem getLast?_of_groups_eq_concat (h : groups xs = gs ++ [g]) : xs.getLast? = g.getLast? := by
  rw [← flatten_groups xs, h, List.flatten_append, List.flatten_singleton,
    List.getLast?_append_of_ne_nil _ (ne_nil_of_groups_eq_concat h)]

/-- A list begins with the first instruction of its first group. -/
theorem head?_of_groups_eq_cons (h : groups xs = g :: gs) : xs.head? = g.head? := by
  rw [← flatten_groups xs, h, List.flatten_cons,
    List.head?_append_of_ne_nil g (ne_nil_of_groups_eq_cons h)]

end Ends

/-- Whatever follows, every group of a list but the last stays. -/
theorem dropLast_groups_append (xs ys : List Instruction) :
    (groups xs).dropLast <+: groups (xs ++ ys) := by
  obtain hxs | ⟨gs, g, hxs⟩ := List.eq_nil_or_concat' (groups xs)
  · simp [hxs]
  cases hys : groups ys with
  | nil =>
      obtain rfl : ys = [] := List.splitBy_eq_nil.mp hys
      rw [List.append_nil]
      exact List.dropLast_prefix _
  | cons h hs =>
      have hlast := List.getLast?_eq_some_getLast (ne_nil_of_groups_eq_concat hxs)
      have hhead := List.head?_eq_some_head (ne_nil_of_groups_eq_cons hys)
      rw [hxs, List.dropLast_concat]
      -- Without a boundary at the seam the last group grows, with one it stays as well.
      cases hjoins : (g.getLast _).joins (h.head _) with
      | true =>
          rw [groups_append_of_joins hxs hys (by simpa [hlast, hhead] using hjoins)]
          exact List.prefix_append _ _
      | false =>
          have hseam : ∀ i ∈ xs.getLast?, ∀ j ∈ ys.head?, i.joins j = false := by
            rw [getLast?_of_groups_eq_concat hxs, head?_of_groups_eq_cons hys]
            simpa [hlast, hhead] using hjoins
          rw [groups_append hseam, hxs, List.append_assoc]
          exact List.prefix_append _ _

/-- An instruction in front of the last group is not the last one. -/
theorem mem_dropLast_of_mem_groups {is g : List Instruction} {i : Instruction}
    (hg : g ∈ (groups is).dropLast) (hi : i ∈ g) : i ∈ is.dropLast := by
  obtain hnil | ⟨gs, last, his⟩ := List.eq_nil_or_concat' (groups is)
  · simp [hnil] at hg
  · rw [his, List.dropLast_concat] at hg
    rw [← flatten_groups is, his, List.flatten_append, List.flatten_singleton,
      List.dropLast_append_of_ne_nil (ne_nil_of_groups_eq_concat his)]
    exact List.mem_append_left _ (List.mem_flatten_of_mem hg hi)

/-! ## instructions changed together -/

/-- Changing instructions, but not their opcodes, changes them in their groups. -/
theorem groups_map (f : Instruction → Instruction) (hf : ∀ i, (f i).opcode = i.opcode)
    (is : List Instruction) : groups (is.map f) = (groups is).map (List.map f) := by
  have hjoins : ∀ i j, (f i).joins (f j) = i.joins j := by
    intro i j
    rw [Instruction.joins, hf, hf, Instruction.joins]
  refine List.splitBy_eq_iff.mpr ⟨?_, ?_, ?_, ?_⟩
  · rw [← List.map_flatten, flatten_groups]
  · intro hnil
    obtain ⟨g, hg, hmap⟩ := List.mem_map.mp hnil
    rw [List.map_eq_nil_iff.mp hmap] at hg
    exact nil_notMem_groups is hg
  · intro g' hg'
    obtain ⟨g, hg, rfl⟩ := List.mem_map.mp hg'
    rw [List.isChain_map]
    simpa only [hjoins] using isChain_of_mem_groups hg
  · rw [List.isChain_map]
    refine (isChain_groups is).imp ?_
    rintro g h ⟨hg, hh, hseam⟩
    refine ⟨by simpa using hg, by simpa using hh, ?_⟩
    rw [List.getLast_map, List.head_map, hjoins]
    exact hseam

/-- Moving instructions moves their groups. -/
theorem groups_map_shift (distance : Nat) (is : List Instruction) :
    groups (is.map (Instruction.shift distance)) =
      (groups is).map (List.map (Instruction.shift distance)) :=
  groups_map (Instruction.shift distance) (fun _ => rfl) is

/-- The block moved up by a distance. -/
def Block.shift (distance : Nat) (b : Block) : Block := ⟨b.start + distance, b.stop + distance⟩

theorem span_map_shift (distance : Nat) {g : List Instruction} (h : g ≠ []) :
    Block.span (g.map (Instruction.shift distance)) = (Block.span g).shift distance := by
  have hstop : ((g.getLast h).shift distance).stop = (g.getLast h).stop + distance :=
    Nat.add_right_comm _ _ _
  rw [Block.span_of_ne_nil (mt List.map_eq_nil_iff.mp h), Block.span_of_ne_nil h,
    List.head_map, List.getLast_map, hstop]
  rfl

/-! ## boundaries lie at the ends of groups -/

/-- Behind the first instruction of a group there is no block start. -/
theorem isBlockStart_eq_false_of_mem {i j : Instruction} {g : List Instruction}
    (h : (i :: g).IsChain fun i j => i.joins j = true) (hj : j ∈ g) :
    j.opcode.isBlockStart = false := by
  induction g generalizing i with
  | nil => contradiction
  | cons k g ih =>
      obtain ⟨hik, hg⟩ := List.isChain_cons_cons.mp h
      cases List.mem_cons.mp hj with
      | inl heq => rw [heq]; exact (Instruction.joins_eq_true_iff.mp hik).2
      | inr hmem => exact ih hg hmem

/-- In a group there is no block end in front of the last instruction. -/
theorem isBlockEnd_eq_false_of_mem_dropLast {i : Instruction} {g : List Instruction}
    (h : g.IsChain fun i j => i.joins j = true) (hi : i ∈ g.dropLast) :
    i.opcode.isBlockEnd = false := by
  induction g with
  | nil => contradiction
  | cons j g ih =>
      cases g with
      | nil => contradiction
      | cons k g =>
          obtain ⟨hjk, hg⟩ := List.isChain_cons_cons.mp h
          rw [List.dropLast_cons_cons] at hi
          cases List.mem_cons.mp hi with
          | inl heq => rw [heq]; exact (Instruction.joins_eq_true_iff.mp hjk).1
          | inr hmem => exact ih hg hmem

/-- A block start is where its group starts. -/
theorem offset_eq_of_isBlockStart {i : Instruction} {g : List Instruction} {start stop : Nat}
    (h : g.IsChain fun i j => i.joins j = true) (ht : Tiles start g stop) (hi : i ∈ g)
    (hs : i.opcode.isBlockStart = true) : i.offset = start := by
  cases g with
  | nil => contradiction
  | cons j g =>
      obtain ⟨rfl, -⟩ := tiles_cons.mp ht
      cases List.mem_cons.mp hi with
      | inl heq => rw [heq]
      | inr hmem =>
          rw [isBlockStart_eq_false_of_mem h hmem] at hs
          contradiction

/-- A block end is where its group stops. -/
theorem stop_eq_of_isBlockEnd {i : Instruction} {g : List Instruction} {start stop : Nat}
    (h : g.IsChain fun i j => i.joins j = true) (ht : Tiles start g stop) (hi : i ∈ g)
    (he : i.opcode.isBlockEnd = true) : i.stop = stop := by
  induction g generalizing start with
  | nil => contradiction
  | cons j g ih =>
      obtain ⟨-, hg⟩ := tiles_cons.mp ht
      cases g with
      | nil =>
          rw [List.mem_singleton.mp hi]
          exact tiles_nil.mp hg
      | cons k g =>
          obtain ⟨hjk, hchain⟩ := List.isChain_cons_cons.mp h
          cases List.mem_cons.mp hi with
          | inl heq =>
              rw [heq, (Instruction.joins_eq_true_iff.mp hjk).1] at he
              contradiction
          | inr hmem => exact ih hchain hg hmem

end EvmBlocks
