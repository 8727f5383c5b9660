import ListPress.Node.Json
import ListPress.Proofs.Chains
import ListPress.Proofs.Simulation

/-! # Nodes with the same content

Nodes of two heaps have the same content when they agree all the way down, atom for atom and cell
for cell. In a heap with cycles that can go on for ever, so sameness is the largest relation that
respects the form of a node (`Heap.Matches`). Nothing that is made of a node tells two such nodes
apart: they have the same printed form (`Heap.Same.print_eq`) and the same JSON
(`Heap.Same.toJsonAt_eq`), and they are in simulation (`Heap.same_simulation`). -/

namespace ListPress
open List

namespace Heap

/-- Nodes of one form with related parts. -/
inductive Matches (h₁ h₂ : Heap) (R : Node → Node → Prop) : Node → Node → Prop
  | atom (a : Atom) : Matches h₁ h₂ R (.atom a) (.atom a)
  | nil : Matches h₁ h₂ R .nil .nil
  | list {xs ys : List Node} : Forall₂ R xs ys → Matches h₁ h₂ R (.list xs) (.list ys)
  | cell {i j : Nat} : R (h₁.head i) (h₂.head j) → R (h₁.tail i) (h₂.tail j) →
    Matches h₁ h₂ R (.cell i) (.cell j)

/-- The nodes have the same content. -/
def Same (h₁ h₂ : Heap) (n₁ n₂ : Node) : Prop :=
  ∃ R : Node → Node → Prop, (∀ m₁ m₂, R m₁ m₂ → Matches h₁ h₂ R m₁ m₂) ∧ R n₁ n₂

variable {h h₁ h₂ : Heap} {n n₁ n₂ : Node} {d : Datum}

theorem Matches.mono {R S : Node → Node → Prop} (H : Matches h₁ h₂ R n₁ n₂)
    (hRS : ∀ m₁ m₂, R m₁ m₂ → S m₁ m₂) : Matches h₁ h₂ S n₁ n₂ := by
  cases H with
  | atom a => exact .atom a
  | nil => exact .nil
  | list hitems => exact .list (hitems.imp hRS)
  | cell hhead htail => exact .cell (hRS _ _ hhead) (hRS _ _ htail)

theorem Same.matches (H : Same h₁ h₂ n₁ n₂) : Matches h₁ h₂ (Same h₁ h₂) n₁ n₂ := by
  obtain ⟨R, hR, hn⟩ := H
  exact (hR _ _ hn).mono fun m₁ m₂ hm => ⟨R, hR, hm⟩

theorem Same.refl (h : Heap) (n : Node) : Same h h n n := by
  refine ⟨Eq, ?_, rfl⟩
  rintro n _ rfl
  cases n with
  | atom a => exact .atom a
  | nil => exact .nil
  | list xs => exact .list (forall₂_refl xs)
  | cell id => exact .cell rfl rfl

/-- Finite nodes with one datum have the same content. -/
theorem Unfolds.same (H₁ : h₁.Unfolds n₁ d) (H₂ : h₂.Unfolds n₂ d) : Same h₁ h₂ n₁ n₂ := by
  refine ⟨fun m₁ m₂ => ∃ d, h₁.Unfolds m₁ d ∧ h₂.Unfolds m₂ d, ?_, d, H₁, H₂⟩
  rintro m₁ m₂ ⟨d, hd₁, hd₂⟩
  cases hd₁ with
  | atom =>
    cases hd₂
    exact .atom _
  | nil =>
    cases hd₂
    exact .nil
  | list hitems₁ =>
    cases hd₂ with
    | list hitems₂ =>
      exact .list (forall₂_of_common (fun d _ _ h₁ h₂ => ⟨d, h₁, h₂⟩) hitems₁.flip hitems₂.flip)
  | cell hhead₁ htail₁ =>
    cases hd₂ with
    | cell hhead₂ htail₂ => exact .cell ⟨_, hhead₁, hhead₂⟩ ⟨_, htail₁, htail₂⟩

/-! ## Walks -/

theorem Same.walk_eq (H : Same h₁ h₂ n₁ n₂) (limit : Nat) {seen₁ seen₂ : List Node}
    (hseen : Forall₂ (Same h₁ h₂) seen₁ seen₂) :
    Forall₂ (Same h₁ h₂) (h₁.walk limit n₁ seen₁).heads (h₂.walk limit n₂ seen₂).heads ∧
      Same h₁ h₂ (h₁.walk limit n₁ seen₁).rest (h₂.walk limit n₂ seen₂).rest := by
  induction limit generalizing n₁ n₂ seen₁ seen₂ with
  | zero => exact ⟨rel_reverse hseen, H⟩
  | succ limit ih =>
    cases H.matches with
    | cell hhead htail => exact ih htail (.cons hhead hseen)
    | atom | nil | list => exact ⟨rel_reverse hseen, H⟩

theorem Same.chain_eq (H : Same h₁ h₂ n₁ n₂) :
    Forall₂ (Same h₁ h₂) (h₁.chain n₁).heads (h₂.chain n₂).heads ∧
      Same h₁ h₂ (h₁.chain n₁).rest (h₂.chain n₂).rest :=
  H.walk_eq maxChain .nil

theorem Same.sequence_alike (H : Same h₁ h₂ n₁ n₂) :
    Alike (Same h₁ h₂) (h₁.sequence n₁) (h₂.sequence n₂) := by
  have hchain := H.chain_eq
  cases H.matches with
  | atom | nil => exact .ok .nil
  | list hitems => exact .ok hitems
  | @cell i j =>
    rw [sequence, sequence]
    generalize h₁.chain (.cell i) = chain₁, h₂.chain (.cell j) = chain₂ at hchain ⊢
    obtain ⟨heads₁, rest₁⟩ := chain₁
    obtain ⟨heads₂, rest₂⟩ := chain₂
    obtain ⟨hheads, hrest⟩ := hchain
    cases hrest.matches with
    | cell => exact .error
    | atom | nil | list => exact .ok hheads

/-! ## Texts -/

theorem Same.printAt_eq (H : Same h₁ h₂ n₁ n₂) (levels : Nat) :
    h₁.printAt levels n₁ = h₂.printAt levels n₂ := by
  induction levels generalizing n₁ n₂ with
  | zero => rfl
  | succ levels ih =>
    have hitems {xs ys : List Node} (hxs : Forall₂ (Same h₁ h₂) xs ys) :
        xs.map (h₁.printAt levels) = ys.map (h₂.printAt levels) :=
      map_printAt_eq hxs ih
    have hchain := H.chain_eq
    cases H.matches with
    | atom | nil => rfl
    | list hxs => rw [printAt, printAt, hitems hxs]
    | @cell i j =>
      obtain ⟨hheads, hrest⟩ := hchain
      rw [printAt_cell, printAt_cell, hitems hheads]
      generalize (h₁.chain (.cell i)).rest = rest₁, (h₂.chain (.cell j)).rest = rest₂ at hrest ⊢
      have hprint := ih hrest
      cases hrest.matches with
      | nil | cell => rfl
      | atom | list => simp only [restText, endingText, hprint]

theorem Same.print_eq (H : Same h₁ h₂ n₁ n₂) : h₁.print n₁ = h₂.print n₂ := H.printAt_eq _

theorem Same.stringOf_eq (H : Same h₁ h₂ n₁ n₂) : h₁.stringOf n₁ = h₂.stringOf n₂ := by
  have hprint := H.print_eq
  cases H.matches with
  | atom a => cases a <;> rfl
  | nil | list | cell => exact hprint

theorem Same.toJsonAt_eq (H : Same h₁ h₂ n₁ n₂) (levels : Nat) :
    h₁.toJsonAt levels n₁ = h₂.toJsonAt levels n₂ := by
  induction levels generalizing n₁ n₂ with
  | zero => rfl
  | succ levels ih =>
    have hitems := H.sequence_alike
    cases H.matches with
    | atom | nil => rfl
    | list | cell =>
      refine hitems.bind_eq fun xs ys hxs => ?_
      rw [mapM_eq_of_forall₂ hxs fun _ _ => ih]

theorem same_simulation (h₁ h₂ : Heap) : Simulation h₁ h₂ (Same h₁ h₂) where
  isList H := by cases H.matches <;> rfl
  string H := by cases H.matches <;> rfl
  text H := H.stringOf_eq
  head H := by
    cases H.matches with
    | atom | nil => rfl
    | list hitems =>
      cases hitems with
      | nil => rfl
      | cons hx => exact congrArg some hx.stringOf_eq
    | cell hhead => exact congrArg some hhead.stringOf_eq
  items H := H.sequence_alike

end Heap
end ListPress
