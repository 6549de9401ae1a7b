import Mathlib.Data.Finset.Union

/-! # Edits of a set

A list of inserts and deletes, applied in order. What an edit list does to an element is decided by
the last edit that names it. If no element is both inserted and deleted, the order of the edits does
not matter (`mem_apply_of_consistent`).
-/

namespace Edits

open List

universe u

variable {α : Type u} [DecidableEq α]

inductive Edit (α : Type u) where
  | insert (a : α)
  | delete (a : α)
  deriving DecidableEq

def Edit.apply (s : Finset α) : Edit α → Finset α
  | .insert a => Insert.insert a s
  | .delete a => s.erase a

def apply (edits : List (Edit α)) (s : Finset α) : Finset α := edits.foldl Edit.apply s

@[simp] theorem apply_nil (s : Finset α) : apply [] s = s := rfl

theorem apply_append (edits edits' : List (Edit α)) (s : Finset α) :
    apply (edits ++ edits') s = apply edits' (apply edits s) :=
  foldl_append

/-- No element is both inserted and deleted. -/
def Consistent (edits : List (Edit α)) : Prop := ∀ a, .insert a ∈ edits → .delete a ∉ edits

/-- **Edits that do not contradict each other** can be taken in any order. -/
theorem mem_apply_of_consistent {edits : List (Edit α)} (h : Consistent edits) (s : Finset α) (a : α) :
    a ∈ apply edits s ↔ .insert a ∈ edits ∨ a ∈ s ∧ .delete a ∉ edits := by
  induction edits using reverseRecOn with
  | nil => simp
  | append_singleton edits e ih =>
    have hbefore : Consistent edits := fun b hb hd =>
      h b (mem_append_left _ hb) (mem_append_left _ hd)
    rw [apply_append]
    show a ∈ e.apply (apply edits s) ↔ _
    cases e with
    | insert b =>
      have hnot : .delete b ∉ edits := fun hd =>
        h b (mem_append_right _ mem_cons_self) (mem_append_left _ hd)
      simp only [Edit.apply, Finset.mem_insert, ih hbefore, mem_append,
        mem_singleton, Edit.insert.injEq, reduceCtorEq, or_false]
      tauto
    | delete b =>
      have hnot : .insert b ∉ edits := fun hi =>
        h b (mem_append_left _ hi) (mem_append_right _ mem_cons_self)
      simp only [Edit.apply, Finset.mem_erase, ih hbefore, mem_append,
        mem_singleton, Edit.delete.injEq, reduceCtorEq, or_false]
      constructor
      · rintro ⟨hne, hi | ⟨hs, hd⟩⟩
        · exact .inl hi
        · exact .inr ⟨hs, fun hor => hor.elim hd hne⟩
      · rintro (hi | ⟨hs, hd⟩)
        · refine ⟨?_, .inl hi⟩
          rintro rfl
          exact hnot hi
        · exact ⟨fun heq => hd (.inr heq), .inr ⟨hs, fun hdel => hd (.inl hdel)⟩⟩

end Edits
