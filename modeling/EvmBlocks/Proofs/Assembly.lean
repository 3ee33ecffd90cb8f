import EvmBlocks.Proofs.Tiling

/-!
# EvmBlocks.Proofs.Assembly

The inverse of decoding: operations, and the code that they are written as.

An operation is an opcode with operand bytes that has no offset yet.
`assemble` writes operations one after another, and `place` says at which
offsets they come to lie.  A list of operations *fits* if the end of every
operand can be told from its opcode, which only the last operand may evade by
being short.

The two facts on which the theory of the decoder rests are that every code is
the assembly of fitting operations (`exists_assembly`), and that an operand of
fitting operations is recovered by its nominal length (`take_operand`,
`drop_operand`).
-/

namespace EvmBlocks

/-- An opcode with operand bytes, at no offset yet. -/
abbrev Operation := Opcode × List UInt8

/-- The bytes of an operation: its opcode, then its operand. -/
def Operation.encode (op : Operation) : List UInt8 := op.1.byte :: op.2

/-- The operation that an instruction performs, wherever it is. -/
def Instruction.operation (i : Instruction) : Operation := (i.opcode, i.data)

/-- The instruction moved up by a distance. -/
def Instruction.shift (distance : Nat) (i : Instruction) : Instruction :=
  { i with offset := i.offset + distance }

/-- The code in which the operations stand one after another. -/
def assemble (ops : List Operation) : List UInt8 := ops.flatMap Operation.encode

/-- The instructions that the operations become when they are written from
`offset` on. -/
def place : Nat → List Operation → List Instruction
  | _, [] => []
  | offset, op :: ops => ⟨offset, op.1, op.2⟩ :: place (offset + op.encode.length) ops

/-- Every operand has the length that its opcode asks for, except that the
last one may be shorter. -/
def Fitting : List Operation → Prop
  | [] => True
  | op :: ops =>
      op.2.length ≤ op.1.immediateSize ∧
        (ops ≠ [] → op.2.length = op.1.immediateSize) ∧ Fitting ops

/-! ## assembled code -/

@[simp] theorem assemble_nil : assemble [] = [] := rfl

@[simp] theorem assemble_cons (op : Operation) (ops : List Operation) :
    assemble (op :: ops) = op.encode ++ assemble ops := rfl

@[simp] theorem assemble_append (xs ys : List Operation) :
    assemble (xs ++ ys) = assemble xs ++ assemble ys := List.flatMap_append

theorem assemble_eq_nil_iff {ops : List Operation} : assemble ops = [] ↔ ops = [] := by
  cases ops <;> simp [Operation.encode]

/-! ## placed operations -/

theorem place_append (offset : Nat) (xs ys : List Operation) :
    place offset (xs ++ ys) = place offset xs ++ place (offset + (assemble xs).length) ys := by
  induction xs generalizing offset with
  | nil => rfl
  | cons op xs ih => simp [place, ih, Nat.add_assoc]

/-- Placed operations tile the range of their code. -/
theorem tiles_place (offset : Nat) (ops : List Operation) :
    Tiles offset (place offset ops) (offset + (assemble ops).length) := by
  induction ops generalizing offset with
  | nil => simp [place]
  | cons op ops ih =>
      refine tiles_cons.mpr ⟨rfl, ?_⟩
      have hstop : Instruction.stop ⟨offset, op.1, op.2⟩ = offset + op.encode.length := by
        simp [Instruction.stop, Instruction.size, Operation.encode, Nat.add_comm]
      rw [hstop, assemble_cons, List.length_append, ← Nat.add_assoc]
      exact ih (offset + op.encode.length)

@[simp] theorem map_operation_place (offset : Nat) (ops : List Operation) :
    (place offset ops).map Instruction.operation = ops := by
  induction ops generalizing offset with
  | nil => rfl
  | cons op ops ih => simp [place, ih, Instruction.operation]

/-- Placing operations further up moves their instructions. -/
theorem place_add (offset distance : Nat) (ops : List Operation) :
    place (offset + distance) ops = (place offset ops).map (Instruction.shift distance) := by
  induction ops generalizing offset with
  | nil => rfl
  | cons op ops ih =>
      have hnext : offset + distance + op.encode.length =
          offset + op.encode.length + distance := by omega
      simp only [place, List.map_cons, Instruction.shift, hnext, ih]

/-- An operation is placed behind the code of the operations before it. -/
theorem place_eq_mapIdx (offset : Nat) (ops : List Operation) :
    place offset ops = ops.mapIdx fun k op =>
      ⟨offset + (assemble (ops.take k)).length, op.1, op.2⟩ := by
  induction ops generalizing offset with
  | nil => rfl
  | cons op ops ih => simp [place, ih, List.mapIdx_cons, Nat.add_assoc]

/-! ## fitting operations -/

/-- Fitting, said of the last operand and of those before it. -/
theorem fitting_iff {ops : List Operation} :
    Fitting ops ↔ (∀ op ∈ ops.dropLast, op.2.length = op.1.immediateSize) ∧
      ∀ op ∈ ops.getLast?, op.2.length ≤ op.1.immediateSize := by
  induction ops with
  | nil => simp [Fitting]
  | cons op ops ih =>
      cases ops with
      | nil => simp [Fitting]
      | cons op' ops =>
          rw [Fitting, ih]
          simp only [List.dropLast_cons_cons, List.mem_cons, List.getLast?_cons_cons, ne_eq,
            reduceCtorEq, not_false_eq_true, true_implies, forall_eq_or_imp]
          constructor
          · rintro ⟨-, hop, hrest, hlast⟩
            exact ⟨⟨hop, hrest⟩, hlast⟩
          · rintro ⟨⟨hop, hrest⟩, hlast⟩
            exact ⟨Nat.le_of_eq hop, hop, hrest, hlast⟩

/-- Complete operations may stand in front of fitting ones. -/
theorem Fitting.append {xs ys : List Operation}
    (hxs : ∀ op ∈ xs, op.2.length = op.1.immediateSize) (hys : Fitting ys) :
    Fitting (xs ++ ys) := by
  induction xs with
  | nil => exact hys
  | cons op xs ih =>
      have hop := hxs op List.mem_cons_self
      exact ⟨Nat.le_of_eq hop, fun _ => hop,
        ih fun op' hop' => hxs op' (List.mem_cons_of_mem op hop')⟩

/-- The operand of the first operation, read back by its nominal length. -/
theorem Fitting.take_operand {op : Operation} {ops : List Operation}
    (h : Fitting (op :: ops)) :
    (op.2 ++ assemble ops).take op.1.immediateSize = op.2 := by
  obtain ⟨hle, hfull, -⟩ := h
  by_cases hops : ops = []
  · simp [hops, List.take_of_length_le hle]
  · rw [← hfull hops, List.take_left]

/-- What is left behind the operand of the first operation. -/
theorem Fitting.drop_operand {op : Operation} {ops : List Operation}
    (h : Fitting (op :: ops)) :
    (op.2 ++ assemble ops).drop op.1.immediateSize = assemble ops := by
  obtain ⟨hle, hfull, -⟩ := h
  by_cases hops : ops = []
  · simp [hops, List.drop_of_length_le hle]
  · rw [← hfull hops, List.drop_left]

/-- Every code is the assembly of fitting operations. -/
theorem exists_assembly (code : List UInt8) : ∃ ops, Fitting ops ∧ assemble ops = code := by
  -- The operand is cut off together with the opcode, so the induction is on the length.
  induction hlen : code.length using Nat.strongRecOn generalizing code with
  | ind n ih =>
      cases code with
      | nil => exact ⟨[], trivial, rfl⟩
      | cons byte rest =>
          obtain ⟨width, hwidth⟩ : ∃ width, (Opcode.mk byte).immediateSize = width := ⟨_, rfl⟩
          have hlt : (rest.drop width).length < n := by
            rw [← hlen, List.length_drop, List.length_cons]
            omega
          obtain ⟨ops, hfit, hops⟩ := ih _ hlt (rest.drop width) rfl
          refine ⟨(⟨byte⟩, rest.take width) :: ops, ⟨?_, ?_, hfit⟩, ?_⟩
          · rw [hwidth]
            exact List.length_take_le width rest
          · intro hne
            have hdrop : rest.drop width ≠ [] := by
              rw [← hops]
              exact mt assemble_eq_nil_iff.mp hne
            have hlen' : width < rest.length :=
              Nat.lt_of_not_le fun hle => hdrop (List.drop_eq_nil_of_le hle)
            rw [hwidth, List.length_take]
            exact Nat.min_eq_left (Nat.le_of_lt hlen')
          · rw [assemble_cons, hops]
            simp [Operation.encode]

end EvmBlocks
