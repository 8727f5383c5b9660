import ListPress.Proofs.Simulation

/-! # Equal nodes

Equality of nodes looks at atoms by value, at array lists item by item and at cells by their identity,
and it takes the two zeros for one number. Nothing that is made of a node tells equal nodes apart
(`Heap.output_eq_of_equal`), in heaps with circular chains too: the two zeros print alike
(`Binary64.print_eq_of_equal`), and a cell is only ever equal to itself.

A cell may hold what is not a number, so what the cell leads to need not be equal to itself.
`Node.Agree` therefore adds to equality that every node agrees with itself; it is the relation that
the walkers of markup and style sheets keep (`Heap.agree_simulation`). -/

namespace ListPress
open List

theorem Binary64.print_of_magnitude_eq_zero {x : Binary64} (hx : x.magnitude = 0) :
    x.print = "0" := by
  have hnan : x.isNaN = false := by simp [isNaN, hx]
  have hfinite : x.isFinite := by
    rw [isFinite, hx]
    decide
  rw [print, hnan, if_neg Bool.false_ne_true, if_pos hfinite, NumberLayout.finite, if_pos hx,
    show printedNumber.signedZero = false from rfl, Bool.and_false]
  rfl

/-- Numbers are equal when they have the same bits or are both zero, and zero is printed without a
sign. -/
theorem Binary64.print_eq_of_equal {x y : Binary64} (H : x.equal y) : x.print = y.print := by
  simp only [equal, Bool.and_eq_true, Bool.or_eq_true, beq_iff_eq] at H
  obtain ⟨-, hbits | ⟨hx, hy⟩⟩ := H
  · cases x
    cases hbits
    rfl
  · rw [print_of_magnitude_eq_zero hx, print_of_magnitude_eq_zero hy]

namespace Node

/-- The nodes are equal but for parts of them that are the same and perhaps not equal to themselves. -/
inductive Agree : Node → Node → Prop
  | refl (n : Node) : Agree n n
  | number {x y : Binary64} : x.equal y → Agree (.atom (.number x)) (.atom (.number y))
  | list {xs ys : List Node} : Forall₂ Agree xs ys → Agree (.list xs) (.list ys)

theorem agree_of_equal_atom {a b : Atom} (H : a.equal b) : Agree (.atom a) (.atom b) := by
  fun_cases Atom.equal a b with
  | case1 x y => exact .number H
  | case2 =>
    have heq : a = b := by simpa only [Atom.equal, beq_iff_eq] using H
    exact heq ▸ .refl _

mutual
theorem agree_of_equal {a b : Node} (H : a.equal b) : Agree a b := by
  cases a with
  | atom a =>
    cases b with
    | atom b => exact agree_of_equal_atom H
    | list | cell | nil => cases H
  | list xs =>
    cases b with
    | list ys => exact .list (agree_of_equalItems H)
    | atom | cell | nil => cases H
  | cell i =>
    cases b with
    | cell j => exact beq_iff_eq.1 H ▸ .refl _
    | atom | list | nil => cases H
  | nil =>
    cases b with
    | nil => exact .refl _
    | atom | list | cell => cases H

theorem agree_of_equalItems {xs ys : List Node} (H : equalItems xs ys) : Forall₂ Agree xs ys := by
  cases xs with
  | nil =>
    cases ys with
    | nil => exact .nil
    | cons => cases H
  | cons x xs =>
    cases ys with
    | nil => cases H
    | cons y ys =>
      rw [equalItems, Bool.and_eq_true] at H
      exact .cons (agree_of_equal H.1) (agree_of_equalItems H.2)
end

end Node

namespace Heap
variable {a b : Node}

theorem printAt_eq_of_agree (h : Heap) (H : a.Agree b) (levels : Nat) :
    h.printAt levels a = h.printAt levels b := by
  induction levels generalizing a b with
  | zero => rfl
  | succ levels ih =>
    cases H with
    | refl => rfl
    | number hxy => exact Binary64.print_eq_of_equal hxy
    | list hitems => rw [printAt, printAt, map_printAt_eq hitems ih]

theorem stringOf_eq_of_agree (h : Heap) (H : a.Agree b) : h.stringOf a = h.stringOf b := by
  have hprint := h.printAt_eq_of_agree H (maxNesting + 1)
  cases H with
  | refl => rfl
  | number | list => exact hprint

theorem agree_simulation (h : Heap) : Simulation h h Node.Agree where
  isList H := by cases H <;> rfl
  string H := by cases H <;> rfl
  text H := h.stringOf_eq_of_agree H
  head H := by
    cases H with
    | refl | number => rfl
    | list hitems =>
      cases hitems with
      | nil => rfl
      | cons hx => exact congrArg some (h.stringOf_eq_of_agree hx)
  items H := by
    cases H with
    | refl =>
      generalize h.sequence _ = sequence
      cases sequence with
      | ok items => exact .ok (forall₂_same.2 fun item _ => .refl item)
      | error => exact .error
    | number => exact .ok .nil
    | list hitems => exact .ok hitems

/-- Equal nodes of a heap have the same printed form, the same markup and the same style sheet under
any variables. -/
theorem output_eq_of_equal (h : Heap) {a b : Node} (H : a.equal b) :
    h.print a = h.print b ∧ h.markup a = h.markup b ∧
      ∀ vars, h.style vars a = h.style vars b := by
  have hagree := Node.agree_of_equal H
  have S := h.agree_simulation
  exact ⟨h.printAt_eq_of_agree hagree _, S.markup_eq hagree, fun vars => S.style_eq vars hagree⟩

/-- A zero and a negative zero, each beside a circular chain of what is not a number. -/
theorem output_eq_of_equal_circular :
    let h : Heap := ⟨#[⟨.atom (.number ⟨0x7FF8000000000000⟩), .cell 0⟩]⟩
    let a : Node := .list [.symbol "p", .atom (.number ⟨0⟩), .cell 0]
    let b : Node := .list [.symbol "p", .atom (.number ⟨0x8000000000000000⟩), .cell 0]
    a.equal b ∧ (h.head 0).equal (h.head 0) = false ∧ h.tail 0 = .cell 0 ∧ h.print a = h.print b ∧
      h.markup a = h.markup b ∧ ∀ vars, h.style vars a = h.style vars b := by
  intro h a b
  have hequal : a.equal b := by decide
  exact ⟨hequal, by decide, rfl, h.output_eq_of_equal hequal⟩

end Heap
end ListPress
