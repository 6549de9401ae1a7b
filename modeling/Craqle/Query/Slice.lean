import Craqle.Query.Update

/-! # Row bounds below unions

The slice of a pattern needs the first `start + length` of its rows and no others. `push_slice_cap`
hands that bound down through the operators that answer row by row and cuts the branches of a union
to it, while the outer slice stays in place.

What the remaining operators answer is a parameter (`RowOps`). With any of them the bounded pattern
has the same first rows (`take_rows_pushSliceCap`).
-/

namespace Craqle

open List

/-! ## The rewriting -/

/-- A branch of a union under a row bound: a slice from the first row that is no longer stays as it
is, everything else is cut. `capped` is the branch with the bound pushed into it. -/
def capBranch (cap : Nat) (branch capped : Pattern) : Pattern :=
  match branch with
  | .slice inner 0 (some existing) =>
    if existing ≤ cap then .slice inner 0 (some existing) else .slice capped 0 (some cap)
  | _ => .slice capped 0 (some cap)

/-- Push an upper row bound through row-preserving operators. -/
def pushSliceCap (cap : Nat) : Pattern → Pattern
  | .project inner vars => .project (pushSliceCap cap inner) vars
  | .extend inner name expression => .extend (pushSliceCap cap inner) name expression
  | .union left right =>
    .union (capBranch cap left (pushSliceCap cap left))
      (capBranch cap right (pushSliceCap cap right))
  | other => other

/-! ## Rows -/

/-- What an evaluation does with one row, and the rows of the patterns that are neither built row by
row nor from slices and unions. -/
structure RowOps (Row : Type) where
  projectRow : List Text → Row → Row
  extendRow : Text → Expression → Row → Row
  other : Pattern → List Row

variable {Row : Type}

def sliceRows (start : Nat) (length : Option Nat) (rows : List Row) : List Row :=
  match length with
  | some length => (rows.drop start).take length
  | none => rows.drop start

/-- The row sequence of a pattern: the left rows of a union come before the right ones. -/
def Pattern.rows (ops : RowOps Row) : Pattern → List Row
  | .project inner vars => (inner.rows ops).map (ops.projectRow vars)
  | .extend inner name expression => (inner.rows ops).map (ops.extendRow name expression)
  | .union left right => left.rows ops ++ right.rows ops
  | .slice inner start length => sliceRows start length (inner.rows ops)
  | pattern => ops.other pattern

/-- Two sequences with the same first rows have them also in front of others. -/
theorem take_append_congr {n : Nat} {a a' b b' : List Row} (ha : a.take n = a'.take n)
    (hb : b.take n = b'.take n) : (a ++ b).take n = (a' ++ b').take n := by
  have hlength : min n a.length = min n a'.length := by
    rw [← length_take, ← length_take, ha]
  have hrest : n - a.length = n - a'.length := by omega
  have hfew : b.take (n - a'.length) = b'.take (n - a'.length) := by
    rw [← Nat.min_eq_left (Nat.sub_le n a'.length), ← take_take, ← take_take, hb]
  rw [take_append, take_append, ha, hrest, hfew]

variable (ops : RowOps Row) (cap : Nat)

theorem take_rows_capBranch {branch capped : Pattern}
    (h : (capped.rows ops).take cap = (branch.rows ops).take cap) :
    ((capBranch cap branch capped).rows ops).take cap = (branch.rows ops).take cap := by
  have hcut : ((Pattern.slice capped 0 (some cap)).rows ops).take cap =
      (branch.rows ops).take cap := by
    show ((((capped.rows ops).drop 0).take cap).take cap) = _
    rw [drop_zero, take_take, Nat.min_self, h]
  unfold capBranch
  split
  · split
    · rfl
    · exact hcut
  · exact hcut

/-- **The bound keeps the first rows.** -/
theorem take_rows_pushSliceCap (pattern : Pattern) :
    ((pushSliceCap cap pattern).rows ops).take cap = (pattern.rows ops).take cap := by
  fun_induction pushSliceCap cap pattern with
  | case1 inner vars ih => simp only [Pattern.rows, ← map_take, ih]
  | case2 inner name expression ih => simp only [Pattern.rows, ← map_take, ih]
  | case3 left right ihl ihr =>
    exact take_append_congr (take_rows_capBranch ops cap ihl) (take_rows_capBranch ops cap ihr)
  | case4 => rfl

/-- **Limit pushdown preserves answers**: the slice of the bounded pattern has the rows of the slice
of the pattern itself. The source saturates `start + length` at `usize::MAX`, more rows than there
can be. -/
theorem slice_pushSliceCap (pattern : Pattern) (start length : Nat) :
    (Pattern.slice (pushSliceCap (start + length) pattern) start (some length)).rows ops =
      (Pattern.slice pattern start (some length)).rows ops := by
  show (((pushSliceCap (start + length) pattern).rows ops).drop start).take length =
    ((pattern.rows ops).drop start).take length
  rw [take_drop, take_drop, take_rows_pushSliceCap]

end Craqle
