import EvmBlocks.Text
import Mathlib.Data.List.Infix

/-!
# EvmBlocks.Proofs.Template

What it means to fill a template.

A template is a row of pieces with a placeholder between each two of them, and to
fill it is to put a value there instead (`Fills`).  A placeholder cannot overlap
another, nor reach from one piece into the next, so every template is cut into
pieces in one way, and `fill` finds it (`fills_iff`).
-/

namespace EvmBlocks.Template

/-- The placeholder of a template. -/
def placeholder : List Char := ['\x7b', 'n', '\x7d']

/-- `text` is `template` with every placeholder replaced by `value`.  The two are
made of the same pieces, none of which has a placeholder in it; in front of every
piece but the first stands a placeholder in `template` and the value in `text`. -/
def Fills (template value text : List Char) : Prop :=
  ∃ first rest, (∀ piece ∈ first :: rest, ¬ placeholder <:+: piece) ∧
    template = first ++ rest.flatMap (placeholder ++ ·) ∧ text = first ++ rest.flatMap (value ++ ·)

variable (value : List Char)

theorem fill_cons {c : Char} {rest : List Char} (h : ¬ placeholder <+: c :: rest) :
    fill value (c :: rest) = c :: fill value rest := by
  apply fill.eq_2
  rintro rest' rfl rfl
  exact h ⟨rest', rfl⟩

/-- No placeholder begins in one piece and ends behind it. -/
theorem placeholder_prefix_of_append {piece tail : List Char}
    (htail : tail = [] ∨ placeholder <+: tail) (hne : piece ≠ [])
    (h : placeholder <+: piece ++ tail) : placeholder <+: piece := by
  match piece with
  | [a] => obtain rfl | ⟨t, rfl⟩ := htail <;> simp [placeholder, List.cons_prefix_cons] at h ⊢
  | [a, b] => obtain rfl | ⟨t, rfl⟩ := htail <;> simp [placeholder, List.cons_prefix_cons] at h ⊢
  | a :: b :: c :: piece => simpa [placeholder, List.cons_prefix_cons] using h

/-- A piece without a placeholder stays as it is. -/
theorem fill_append {piece tail : List Char} (h : ¬ placeholder <:+: piece)
    (htail : tail = [] ∨ placeholder <+: tail) :
    fill value (piece ++ tail) = piece ++ fill value tail := by
  induction piece with
  | nil => rfl
  | cons c piece ih =>
      rw [List.infix_cons_iff, not_or] at h
      have hhead : ¬ placeholder <+: c :: (piece ++ tail) := fun hstart =>
        h.1 (placeholder_prefix_of_append htail (List.cons_ne_nil c piece) hstart)
      rw [List.cons_append, fill_cons value hhead, ih h.2, List.cons_append]

theorem fill_pieces {first : List Char} {rest : List (List Char)}
    (h : ∀ piece ∈ first :: rest, ¬ placeholder <:+: piece) :
    fill value (first ++ rest.flatMap (placeholder ++ ·)) = first ++ rest.flatMap (value ++ ·) := by
  induction rest generalizing first with
  | nil => simpa [fill] using fill_append value (h first List.mem_cons_self) (.inl rfl)
  | cons piece rest ih =>
      have hrest := ih fun piece' hmem => h piece' (List.mem_cons_of_mem first hmem)
      simp only [List.flatMap_cons, List.append_assoc]
      rw [fill_append value (h first List.mem_cons_self) (.inr (List.prefix_append _ _)), ← hrest]
      exact congrArg (first ++ ·) (fill.eq_1 value _)

theorem fills_fill (template : List Char) : Fills template value (fill value template) := by
  induction template using fill.induct with
  | case1 rest ih =>
      obtain ⟨first, pieces, hpieces, rfl, hfill⟩ := ih
      refine ⟨[], first :: pieces, ?_, by simp [placeholder], by simp [fill, hfill]⟩
      intro piece hpiece
      cases List.mem_cons.mp hpiece with
      | inl hnil => simp [hnil, placeholder]
      | inr hmem => exact hpieces piece hmem
  | case2 c rest hhead ih =>
      obtain ⟨first, pieces, hpieces, hrest, hfill⟩ := ih
      refine ⟨c :: first, pieces, ?_, by simp [hrest], by rw [fill.eq_2 _ _ _ hhead, hfill]; rfl⟩
      intro piece hpiece
      cases List.mem_cons.mp hpiece with
      | inr hmem => exact hpieces piece (List.mem_cons_of_mem first hmem)
      | inl heq =>
          subst heq
          rw [List.infix_cons_iff, not_or]
          refine ⟨?_, hpieces first List.mem_cons_self⟩
          rintro ⟨tail, htail⟩
          obtain ⟨rfl, hfirst⟩ := List.cons.inj htail
          refine hhead (tail ++ pieces.flatMap (placeholder ++ ·)) rfl ?_
          rw [hrest, ← hfirst]
          rfl
  | case3 => exact ⟨[], [], by simp [placeholder], rfl, rfl⟩

/-- Filling a template replaces every placeholder, and there is one way to do it. -/
theorem fills_iff {template value text : List Char} :
    Fills template value text ↔ text = fill value template := by
  constructor
  · rintro ⟨first, rest, hpieces, rfl, rfl⟩
    exact (fill_pieces value hpieces).symm
  · rintro rfl
    exact fills_fill value template

end EvmBlocks.Template
