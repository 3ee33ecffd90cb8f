import EvmBlocks.Proofs.Decode
import Mathlib.Data.Set.Card

/-!
# EvmBlocks.Proofs.Store

An instruction map after any number of insertions.

A map is known by what it answers for each key, and that is the latest
instruction stored under the key, or the one that was there at the beginning
(`get?_exchangeAll`).  All other views follow the answers
(`shows_of_get?`), and two maps with the same answers have the same listing
(`toList_eq_of_get?_eq`).  So a map is a faithful store of its history, in which
only the latest entry under a key counts and the order of entries under different
keys does not (`store_faithful`).

An ordered map has no range between bounds in the wrong order.  `rangeChecked` asks
for ranges with a fault for such bounds, and never has one (`rangeChecked_eq`).
-/

namespace EvmBlocks

namespace InstructionMap

/-! ## checked ranges -/

/-- Why there is no range between two bounds. -/
inductive RangeFault where
  /-- The range would stop before it starts. -/
  | inverted (start stop : Nat)
  deriving DecidableEq, Repr

/-- The entries whose keys lie between two bounds, which must be in order. -/
def between (m : InstructionMap) (start stop : Nat) :
    Except RangeFault (List (Nat × Instruction)) :=
  if start ≤ stop then .ok m.entries[start...stop].toList else .error (.inverted start stop)

/-- The instructions of a range.  The end of the range is moved to its start if it lies
before it. -/
def rangeChecked (m : InstructionMap) (start stop : Nat) : Except RangeFault (List Instruction) :=
  (m.between start (max stop start)).map (List.map Prod.snd)

/-- No bounds are in the wrong order once the end is moved. -/
theorem rangeChecked_eq (m : InstructionMap) (start stop : Nat) :
    m.rangeChecked start stop = .ok (m.range start stop) := by
  rw [rangeChecked, between, if_pos (Nat.le_max_right stop start)]
  rfl

example : (empty 4).between 2 1 = .error (.inverted 2 1) := rfl

/-! ## views -/

/-- All views of a map show the same contents. -/
structure Shows (m : InstructionMap) (contents : Nat → Option Instruction) : Prop where
  get? : ∀ key, m.get? key = contents key
  contains : ∀ key, m.contains key = (contents key).isSome
  ascending : m.toList.Pairwise fun a b => a.1 < b.1
  mem_toList : ∀ key i, (key, i) ∈ m.toList ↔ contents key = some i
  instructions : m.instructions = m.toList.map Prod.snd
  size : m.size = Set.ncard {key | (contents key).isSome = true}
  isEmpty : m.isEmpty = true ↔ ∀ key, contents key = none
  range : ∀ start stop, m.range start stop =
    (m.toList.filter fun e => start ≤ e.1 ∧ e.1 < stop).map Prod.snd
  rangeChecked : ∀ start stop, m.rangeChecked start stop =
    .ok ((m.toList.filter fun e => start ≤ e.1 ∧ e.1 < stop).map Prod.snd)

/-- The keys of a map, each once. -/
theorem nodup_keys (m : InstructionMap) : (m.toList.map Prod.fst).Nodup := by
  rw [List.nodup_iff_pairwise_ne, List.pairwise_map]
  exact (pairwise_toList m).imp Nat.ne_of_lt

theorem mem_keys_iff {m : InstructionMap} {key : Nat} :
    key ∈ m.toList.map Prod.fst ↔ (m.get? key).isSome = true := by
  simp [mem_toList_iff, Option.isSome_iff_exists]

/-- The number of entries is the number of keys. -/
theorem size_eq_ncard (m : InstructionMap) :
    m.size = Set.ncard {key | (m.get? key).isSome = true} := by
  have hkeys : {key | (m.get? key).isSome = true} =
      ((m.toList.map Prod.fst).toFinset : Set Nat) := by
    ext key
    simp only [List.coe_toFinset, mem_keys_iff]
  rw [hkeys, Set.ncard_coe_finset, List.toFinset_card_of_nodup m.nodup_keys, List.length_map,
    length_toList]

theorem isEmpty_iff (m : InstructionMap) : m.isEmpty = true ↔ ∀ key, m.get? key = none := by
  have hlist : m.isEmpty = m.toList.isEmpty := Std.TreeMap.isEmpty_toList.symm
  rw [hlist, List.isEmpty_iff, List.eq_nil_iff_forall_not_mem]
  simp only [Prod.forall, mem_toList_iff, Option.eq_none_iff_forall_ne_some, ne_eq]

/-- What a map answers for each key determines all its views. -/
theorem shows_of_get? {m : InstructionMap} {contents : Nat → Option Instruction}
    (h : ∀ key, m.get? key = contents key) : m.Shows contents where
  get? := h
  contains key := by rw [contains_eq_isSome_get?, h]
  ascending := pairwise_toList m
  mem_toList key i := by rw [mem_toList_iff, h]
  instructions := rfl
  size := by rw [size_eq_ncard]; simp only [h]
  isEmpty := by rw [isEmpty_iff]; simp only [h]
  range := range_eq m
  rangeChecked start stop := by rw [rangeChecked_eq, range_eq]

/-- Maps that answer alike have the same listing. -/
theorem toList_eq_of_get?_eq {m m' : InstructionMap} (h : ∀ key, m.get? key = m'.get? key) :
    m.toList = m'.toList := by
  apply eq_of_ascending (pairwise_toList m) (pairwise_toList m')
  intro e
  rw [mem_toList_iff, mem_toList_iff, h]

/-! ## histories -/

/-- Stores entries one after another, and collects what each of them replaces. -/
def exchangeAll (m : InstructionMap) :
    List (Nat × Instruction) → List (Option Instruction) × InstructionMap
  | [] => ([], m)
  | e :: rest =>
      let (replaced, m) := m.exchange e.1 e.2
      let (answers, m) := m.exchangeAll rest
      (replaced :: answers, m)

theorem exchangeAll_cons (m : InstructionMap) (e : Nat × Instruction)
    (history : List (Nat × Instruction)) :
    m.exchangeAll (e :: history) =
      (m.get? e.1 :: ((m.insert e.1 e.2).exchangeAll history).1,
        ((m.insert e.1 e.2).exchangeAll history).2) := rfl

theorem codeLength_exchangeAll (m : InstructionMap) (history : List (Nat × Instruction)) :
    (m.exchangeAll history).2.codeLength = m.codeLength := by
  induction history generalizing m with
  | nil => rfl
  | cons e history ih => rw [exchangeAll_cons, ih, codeLength_insert]

/-- Under a key there is the latest instruction of the history, or else the one
from the beginning. -/
theorem get?_exchangeAll (m : InstructionMap) (history : List (Nat × Instruction)) (key : Nat) :
    (m.exchangeAll history).2.get? key = (history.reverse.lookup key).or (m.get? key) := by
  induction history generalizing m with
  | nil => rfl
  | cons e history ih =>
      obtain ⟨k, i⟩ := e
      rw [exchangeAll_cons, ih, get?_insert, List.reverse_cons, List.lookup_append, Option.or_assoc]
      by_cases hkey : k = key
      · simp [hkey]
      · have hbeq : (key == k) = false := beq_false_of_ne (Ne.symm hkey)
        simp [List.lookup_cons, hkey, hbeq]

/-- Each insertion answers with what the map held under its key just before. -/
theorem fst_exchangeAll (m : InstructionMap) (history : List (Nat × Instruction)) :
    (m.exchangeAll history).1 =
      history.mapIdx fun n e => (m.exchangeAll (history.take n)).2.get? e.1 := by
  induction history generalizing m with
  | nil => rfl
  | cons e history ih =>
      rw [exchangeAll_cons, List.mapIdx_cons, ih]
      simp only [List.take_succ_cons, exchangeAll_cons]
      rfl

end InstructionMap

/-! ## permuted histories -/

/-- In a list with distinct keys, what is found under a key is what is paired with it. -/
theorem lookup_eq_some_iff_mem {history : List (Nat × Instruction)} {key : Nat} {i : Instruction}
    (h : (history.map Prod.fst).Nodup) : history.lookup key = some i ↔ (key, i) ∈ history := by
  induction history with
  | nil => simp
  | cons e history ih =>
      obtain ⟨k, j⟩ := e
      rw [List.map_cons, List.nodup_cons] at h
      by_cases hkey : key = k
      · subst hkey
        have hnot : (key, i) ∉ history := fun hmem => h.1 (List.mem_map.mpr ⟨_, hmem, rfl⟩)
        simp [hnot, eq_comm]
      · have hbeq : (key == k) = false := beq_false_of_ne hkey
        simp [List.lookup_cons, hbeq, hkey, ih h.2]

theorem lookup_reverse_of_perm {history history' : List (Nat × Instruction)}
    (hperm : history.Perm history') (h : (history.map Prod.fst).Nodup) (key : Nat) :
    history.reverse.lookup key = history'.reverse.lookup key := by
  have h' : (history'.map Prod.fst).Nodup := (hperm.map Prod.fst).nodup_iff.mp h
  ext i
  rw [lookup_eq_some_iff_mem (by simpa using h), lookup_eq_some_iff_mem (by simpa using h'),
    List.mem_reverse, List.mem_reverse, hperm.mem_iff]

/-! ## the store -/

/-- What a store begins with: no instruction, for a code of known length, or the
instructions of a code. -/
inductive Origin where
  | blank (codeLength : Nat)
  | decoded (code : List UInt8)

namespace Origin

/-- The map at the beginning. -/
def map : Origin → InstructionMap
  | blank codeLength => .empty codeLength
  | decoded code => decode code

/-- The length of the code. -/
def codeLength : Origin → Nat
  | blank codeLength => codeLength
  | decoded code => code.length

/-- The instruction at an offset at the beginning. -/
def at? : Origin → Nat → Option Instruction
  | blank _, _ => none
  | decoded code, offset => (decode code).instructions.find? fun i => i.offset = offset

theorem codeLength_map (origin : Origin) : origin.map.codeLength = origin.codeLength := by
  cases origin with
  | blank codeLength => rfl
  | decoded code => exact codeLength_decode code

/-- A decoded map has under an offset the instruction that carries it. -/
theorem get?_map (origin : Origin) (key : Nat) : origin.map.get? key = origin.at? key := by
  cases origin with
  | blank codeLength => exact InstructionMap.get?_empty codeLength key
  | decoded code =>
      rw [map, at?]
      cases hfind : (decode code).instructions.find? fun i => i.offset = key with
      | none =>
          rw [Option.eq_none_iff_forall_ne_some]
          intro i hget
          obtain ⟨hi, hoffset⟩ := get?_decode_eq_some_iff.mp hget
          simpa [hoffset] using List.find?_eq_none.mp hfind i hi
      | some i =>
          have hoffset : i.offset = key := by simpa using List.find?_some hfind
          exact get?_decode_eq_some_iff.mpr ⟨List.mem_of_find?_eq_some hfind, hoffset⟩

end Origin

/-- An instruction map is a faithful store of its history, whatever it began with.
All its views show, under each key, the latest instruction of the history, or else
the one from the beginning; each insertion answered with what stood under its key;
the length of the code stays; and another order of entries under distinct keys
gives the same map. -/
theorem store_faithful (origin : Origin) (history : List (Nat × Instruction)) :
    (origin.map.exchangeAll history).2.Shows
        (fun key => (history.reverse.lookup key).or (origin.at? key)) ∧
      (origin.map.exchangeAll history).2.codeLength = origin.codeLength ∧
      (origin.map.exchangeAll history).1 =
        history.mapIdx (fun n e => (origin.map.exchangeAll (history.take n)).2.get? e.1) ∧
      ((history.map Prod.fst).Nodup → ∀ history' : List (Nat × Instruction),
        history.Perm history' →
          (origin.map.exchangeAll history').2.codeLength =
              (origin.map.exchangeAll history).2.codeLength ∧
            (origin.map.exchangeAll history').2.toList =
              (origin.map.exchangeAll history).2.toList) := by
  refine ⟨?_, ?_, InstructionMap.fst_exchangeAll _ _, ?_⟩
  · apply InstructionMap.shows_of_get?
    intro key
    rw [InstructionMap.get?_exchangeAll, origin.get?_map]
  · rw [InstructionMap.codeLength_exchangeAll, origin.codeLength_map]
  · intro hkeys history' hperm
    refine ⟨?_, InstructionMap.toList_eq_of_get?_eq fun key => ?_⟩
    · rw [InstructionMap.codeLength_exchangeAll, InstructionMap.codeLength_exchangeAll]
    · rw [InstructionMap.get?_exchangeAll, InstructionMap.get?_exchangeAll,
        lookup_reverse_of_perm hperm hkeys]

/-- Behind the instructions of `PUSH1 0x5b`, `STOP`, two entries with offsets other than
their keys, one of them over the `STOP`, are stored in either order; and a range with
inverted bounds is empty. -/
theorem store_faithful_either_order :
    ([(2, ⟨9, ⟨0x01⟩, []⟩), (1, ⟨1, ⟨0x5b⟩, [0x00]⟩)].map
        (Prod.fst : Nat × Instruction → Nat)).Nodup ∧
      [((2, ⟨9, ⟨0x01⟩, []⟩) : Nat × Instruction), (1, ⟨1, ⟨0x5b⟩, [0x00]⟩)].Perm
        [(1, ⟨1, ⟨0x5b⟩, [0x00]⟩), (2, ⟨9, ⟨0x01⟩, []⟩)] ∧
      ((decode [0x60, 0x5b, 0x00]).exchangeAll
          [(1, ⟨1, ⟨0x5b⟩, [0x00]⟩), (2, ⟨9, ⟨0x01⟩, []⟩)]).2.toList =
        ((decode [0x60, 0x5b, 0x00]).exchangeAll
          [(2, ⟨9, ⟨0x01⟩, []⟩), (1, ⟨1, ⟨0x5b⟩, [0x00]⟩)]).2.toList ∧
      ((decode [0x60, 0x5b, 0x00]).exchangeAll
          [(2, ⟨9, ⟨0x01⟩, []⟩), (1, ⟨1, ⟨0x5b⟩, [0x00]⟩)]).2.rangeChecked 2 1 = .ok [] := by
  have hkeys : ([(2, ⟨9, ⟨0x01⟩, []⟩), (1, ⟨1, ⟨0x5b⟩, [0x00]⟩)].map
      (Prod.fst : Nat × Instruction → Nat)).Nodup := by decide
  have hperm : [((2, ⟨9, ⟨0x01⟩, []⟩) : Nat × Instruction), (1, ⟨1, ⟨0x5b⟩, [0x00]⟩)].Perm
      [(1, ⟨1, ⟨0x5b⟩, [0x00]⟩), (2, ⟨9, ⟨0x01⟩, []⟩)] := List.Perm.swap _ _ _
  obtain ⟨hshows, -, -, horder⟩ := store_faithful (.decoded [0x60, 0x5b, 0x00])
    [(2, ⟨9, ⟨0x01⟩, []⟩), (1, ⟨1, ⟨0x5b⟩, [0x00]⟩)]
  refine ⟨hkeys, hperm, (horder hkeys _ hperm).2, (hshows.rangeChecked 2 1).trans ?_⟩
  rw [List.filter_eq_nil_iff.mpr, List.map_nil]
  intro e _
  simp only [decide_eq_true_eq]
  omega

end EvmBlocks
