import EvmBlocks.InstructionMap
import EvmBlocks.Proofs.Tiling
import Mathlib.Data.List.Sort

/-!
# EvmBlocks.Proofs.InstructionMap

The listing of an instruction map as the one account of its contents.

Keys ascend strictly in `toList`, so a listing is determined by which entries
are in it.  From that follow the facts that the rest of the theory uses: an
entry stored behind all others is listed last, the entries in the code are all
entries when no key lies beyond the code, and an entry in the code comes right
behind those that are stored in front of its key.
-/

namespace EvmBlocks

namespace InstructionMap

/-! ## listings -/

/-- Two listings in ascending order of their keys with the same entries are
the same listing. -/
theorem eq_of_ascending {xs ys : List (Nat × Instruction)}
    (hxs : xs.Pairwise fun a b => a.1 < b.1) (hys : ys.Pairwise fun a b => a.1 < b.1)
    (h : ∀ e, e ∈ xs ↔ e ∈ ys) : xs = ys := by
  have irrefl : Std.Irrefl fun a b : Nat × Instruction => a.1 < b.1 :=
    ⟨fun a => Nat.lt_irrefl a.1⟩
  have antisymm : Std.Antisymm fun a b : Nat × Instruction => a.1 < b.1 :=
    ⟨fun a b hab hba => absurd hab (Nat.lt_asymm hba)⟩
  exact List.Pairwise.eq_of_mem_iff hxs hys h

/-- The entries after an insertion: the new one, and the old ones under other
keys. -/
theorem mem_toList_insert {m : InstructionMap} {key : Nat} {i : Instruction}
    {e : Nat × Instruction} :
    e ∈ (m.insert key i).toList ↔ e = (key, i) ∨ e.1 ≠ key ∧ e ∈ m.toList := by
  obtain ⟨k, j⟩ := e
  rw [mem_toList_iff, get?_insert, mem_toList_iff]
  by_cases hk : key = k
  · subst hk
    simp [eq_comm]
  · simp [hk, Ne.symm hk]

/-- An entry stored behind all others is listed last. -/
theorem toList_insert_of_lt {m : InstructionMap} {key : Nat} (i : Instruction)
    (h : ∀ e ∈ m.toList, e.1 < key) :
    (m.insert key i).toList = m.toList ++ [(key, i)] := by
  apply eq_of_ascending (pairwise_toList _)
  · rw [List.pairwise_append]
    refine ⟨pairwise_toList m, List.pairwise_singleton _ _, ?_⟩
    intro a ha b hb
    rw [List.mem_singleton] at hb
    rw [hb]
    exact h a ha
  · intro e
    rw [mem_toList_insert, List.mem_append, List.mem_singleton, or_comm]
    refine or_congr_left ⟨And.right, fun he => ⟨?_, he⟩⟩
    exact Nat.ne_of_lt (h e he)

theorem length_instructions (m : InstructionMap) : m.instructions.length = m.size := by
  rw [instructions, List.length_map, length_toList]

/-! ## entries in the code -/

/-- Reading an ascending listing up to a bound keeps exactly the entries below
the bound. -/
theorem takeWhile_eq_filter {xs : List (Nat × Instruction)} (bound : Nat)
    (h : xs.Pairwise fun a b => a.1 < b.1) :
    xs.takeWhile (fun e => e.1 < bound) = xs.filter (fun e => e.1 < bound) := by
  induction xs with
  | nil => rfl
  | cons e xs ih =>
      obtain ⟨he, hxs⟩ := List.pairwise_cons.mp h
      by_cases hb : e.1 < bound
      · simp [hb, ih hxs]
      · have hrest : xs.filter (fun e => e.1 < bound) = [] := by
          apply List.filter_eq_nil_iff.mpr
          intro e' he'
          have := he e' he'
          simp only [decide_eq_true_eq]
          omega
        simp [hb, hrest]

theorem mem_entriesInCode {m : InstructionMap} {e : Nat × Instruction} :
    e ∈ m.entriesInCode ↔ e ∈ m.toList ∧ e.1 < m.codeLength := by
  rw [entriesInCode, takeWhile_eq_filter _ (pairwise_toList m), List.mem_filter,
    decide_eq_true_eq]

/-- If no key lies beyond the code, all entries lie in it. -/
theorem entriesInCode_eq_toList {m : InstructionMap}
    (h : ∀ e ∈ m.toList, e.1 < m.codeLength) : m.entriesInCode = m.toList := by
  rw [entriesInCode, takeWhile_eq_filter _ (pairwise_toList m), List.filter_eq_self]
  intro e he
  exact decide_eq_true (h e he)

/-- An instruction is stored under a key that lies in the code. -/
def Holds (m : InstructionMap) (key : Nat) (i : Instruction) : Prop :=
  key < m.codeLength ∧ m.get? key = some i

theorem holds_iff {m : InstructionMap} {key : Nat} {i : Instruction} :
    m.Holds key i ↔ (key, i) ∈ m.entriesInCode := by
  simp [Holds, mem_entriesInCode, mem_toList_iff, and_comm]

theorem pairwise_entriesInCode (m : InstructionMap) :
    m.entriesInCode.Pairwise fun a b => a.1 < b.1 :=
  (pairwise_toList m).sublist (List.takeWhile_sublist _)

/-! ## what is stored in front of a key -/

/-- The entries whose keys are below a bound. -/
def below (m : InstructionMap) (bound : Nat) : InstructionMap :=
  { m with entries := m.entries.filter fun key _ => key < bound }

theorem toList_below (m : InstructionMap) (bound : Nat) :
    (m.below bound).toList = m.toList.filter fun e => e.1 < bound :=
  Std.TreeMap.toList_filter

theorem entriesInCode_below (m : InstructionMap) (bound : Nat) :
    (m.below bound).entriesInCode = m.entriesInCode.filter fun e => e.1 < bound := by
  rw [entriesInCode, entriesInCode, takeWhile_eq_filter _ (pairwise_toList _),
    takeWhile_eq_filter _ (pairwise_toList _), toList_below, List.filter_filter, List.filter_filter]
  simp only [Bool.and_comm]
  rfl

/-- An entry in the code follows what is stored in front of its key. -/
theorem exists_entriesInCode_eq {m : InstructionMap} {key : Nat} {i : Instruction}
    (h : m.Holds key i) :
    ∃ after, m.entriesInCode = (m.below key).entriesInCode ++ (key, i) :: after := by
  obtain ⟨before, after, hsplit⟩ := List.append_of_mem (holds_iff.mp h)
  have hascending := pairwise_entriesInCode m
  rw [hsplit, List.pairwise_append, List.pairwise_cons] at hascending
  obtain ⟨-, ⟨hafter, -⟩, hbefore⟩ := hascending
  refine ⟨after, ?_⟩
  have hkept : before.filter (fun e => e.1 < key) = before := by
    rw [List.filter_eq_self]
    intro e he
    exact decide_eq_true (hbefore e he (key, i) List.mem_cons_self)
  have hdropped : after.filter (fun e => e.1 < key) = [] := by
    rw [List.filter_eq_nil_iff]
    intro e he
    simpa using Nat.le_of_lt (hafter e he)
  rw [entriesInCode_below, hsplit, List.filter_append, List.filter_cons, hkept, hdropped]
  simp

/-! ## maps that tile their code -/

/-- The instructions whose keys lie in the code, in ascending order. -/
def inCode (m : InstructionMap) : List Instruction := m.entriesInCode.map Prod.snd

/-- No instruction lies in the code if none is stored under an offset of it. -/
theorem inCode_eq_nil_iff {m : InstructionMap} :
    m.inCode = [] ↔ ∀ key < m.codeLength, m.get? key = none := by
  rw [inCode, List.map_eq_nil_iff]
  simp only [List.eq_nil_iff_forall_not_mem, mem_entriesInCode, Prod.forall, mem_toList_iff,
    Option.eq_none_iff_forall_ne_some]
  exact ⟨fun h key hkey i hi => h key i ⟨hi, hkey⟩,
    fun h key i hi => h key hi.2 i hi.1⟩

/-- The instructions in the code are filed under their own offsets and lie side
by side from the start of the code to its end.  Nothing is asked of opcodes,
of operands, or of what is stored beyond the code. -/
structure TilesCode (m : InstructionMap) : Prop where
  key_eq : ∀ e ∈ m.entriesInCode, e.1 = e.2.offset
  tiles : Tiles 0 m.inCode m.codeLength

instance (m : InstructionMap) : Decidable m.TilesCode :=
  decidable_of_iff
    ((∀ e ∈ m.entriesInCode, e.1 = e.2.offset) ∧ Tiles 0 m.inCode m.codeLength)
    ⟨fun h => ⟨h.1, h.2⟩, fun h => ⟨h.key_eq, h.tiles⟩⟩

end InstructionMap

end EvmBlocks
