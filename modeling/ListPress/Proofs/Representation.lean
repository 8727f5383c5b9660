import ListPress.Proofs.Simulation
import ListPress.Proofs.Unfolding

/-! # Representation independence

A list can be an array list or a chain of cells that ends in the empty node, and the choice is free
at every level of a node. Nodes that differ only in these choices have the same printed form, the
same markup and the same style sheet (`Heap.output_eq_of_related`). Both sides show the same items
(`Heap.Shows`), so the relation between them is a simulation (`Heap.twins_simulation`). -/

namespace ListPress
open List

namespace Datum
variable {d d₁ d₂ t : Datum} {xs ys : List Datum}

/-- The datum is a list of the items `xs`: an array list, or a chain that ends in the empty node.
The empty node is a list without items. -/
inductive Lists : Datum → List Datum → Prop
  | array (xs : List Datum) : Lists (.list xs) xs
  | chain (xs : List Datum) : Lists (.chain xs .nil) xs

end Datum

/-- Data that are the same but for the form of their lists. A chain with another end than the empty
node is related to a chain of related heads with the same end. -/
inductive Datum.Related : Datum → Datum → Prop
  | atom (a : Atom) : Related (.atom a) (.atom a)
  | list {d₁ d₂ : Datum} {xs ys : List Datum} : d₁.Lists xs → d₂.Lists ys →
    Forall₂ Related xs ys → Related d₁ d₂
  | dotted {xs ys : List Datum} (t : Datum) : Forall₂ Related xs ys →
    Related (.chain xs t) (.chain ys t)

namespace Datum
variable {d d₁ d₂ t : Datum} {xs ys : List Datum}

theorem Lists.not_atom (H : Lists d xs) (a : Atom) : d ≠ .atom a := by
  cases H with
  | array => nofun
  | chain => cases xs <;> simp

theorem Lists.items_eq (H : Lists d xs) : d.items = xs := by
  cases H with
  | array => rfl
  | chain =>
    cases xs with
    | nil => rfl
    | cons x xs => simp [items, heads, heads_chain]

theorem Lists.dotted?_eq (H : Lists d xs) : d.dotted? = none := by
  cases H with
  | array => rfl
  | chain =>
    cases xs with
    | nil => rfl
    | cons x xs => simp [dotted?, ending_chain, ending]

theorem Related.refl (d : Datum) : Related d d := .dotted d .nil

theorem forall₂_related_refl (xs : List Datum) : Forall₂ Related xs xs := by
  induction xs with
  | nil => exact .nil
  | cons x xs ih => exact .cons (.refl x) ih

/-- Related data are one atom, or lists of related items with the same datum after the dot. -/
theorem Related.inversion (H : Related d₁ d₂) : (∃ a, d₁ = .atom a ∧ d₂ = .atom a) ∨
    (∀ a, d₁ ≠ .atom a) ∧ (∀ a, d₂ ≠ .atom a) ∧ Forall₂ Related d₁.items d₂.items ∧
      d₁.dotted? = d₂.dotted? := by
  cases H with
  | atom a => exact .inl ⟨a, rfl, rfl⟩
  | list h1 h2 hitems =>
    refine .inr ⟨h1.not_atom, h2.not_atom, ?_, ?_⟩
    · rwa [h1.items_eq, h2.items_eq]
    · rw [h1.dotted?_eq, h2.dotted?_eq]
  | dotted t hheads =>
    cases hheads with
    | nil =>
      cases t with
      | atom a => exact .inl ⟨a, rfl, rfl⟩
      | list | cons | nil => exact .inr ⟨nofun, nofun, forall₂_related_refl _, rfl⟩
    | cons hx hxs =>
      refine .inr ⟨by simp, by simp, ?_, ?_⟩
      · simpa [items, heads, heads_chain, hx] using rel_append hxs (forall₂_related_refl t.heads)
      · simp [dotted?, ending_chain]

end Datum

theorem Node.string?_of_isList {n : Node} (hn : n.isList) : n.string? = none := by
  cases n with
  | atom => cases hn
  | list | cell | nil => rfl

namespace Heap
variable {h h₁ h₂ : Heap} {n n₁ n₂ : Node}

/-- Finite nodes with related contents, whose chains can all be walked. -/
def Twins (h₁ h₂ : Heap) (n₁ n₂ : Node) : Prop :=
  ∃ d₁ d₂, h₁.Unfolds n₁ d₁ ∧ h₂.Unfolds n₂ d₂ ∧ d₁.ChainsFit ∧ d₂.ChainsFit ∧ d₁.Related d₂

theorem forall₂_twins {nodes₁ nodes₂ : List Node} {xs ys : List Datum}
    (hnodes₁ : Forall₂ h₁.Unfolds nodes₁ xs) (hnodes₂ : Forall₂ h₂.Unfolds nodes₂ ys)
    (hfit₁ : ∀ x ∈ xs, x.ChainsFit) (hfit₂ : ∀ y ∈ ys, y.ChainsFit)
    (hrel : Forall₂ Datum.Related xs ys) : Forall₂ (Twins h₁ h₂) nodes₁ nodes₂ := by
  induction hrel generalizing nodes₁ nodes₂ with
  | nil =>
    cases hnodes₁
    cases hnodes₂
    exact .nil
  | cons hr _ ih =>
    cases hnodes₁ with | cons hx hxs =>
    cases hnodes₂ with | cons hy hys =>
    rw [forall_mem_cons] at hfit₁ hfit₂
    exact .cons ⟨_, _, hx, hy, hfit₁.1, hfit₂.1, hr⟩ (ih hxs hys hfit₁.2 hfit₂.2)

/-- Twins are the same atom, or they show twins, item by item and after the dot. -/
theorem Twins.inversion (H : Twins h₁ h₂ n₁ n₂) : (∃ a, n₁ = .atom a ∧ n₂ = .atom a) ∨
    ∃ nodes₁ rest₁ nodes₂ rest₂, h₁.Shows n₁ nodes₁ rest₁ ∧ h₂.Shows n₂ nodes₂ rest₂ ∧
      Forall₂ (Twins h₁ h₂) nodes₁ nodes₂ ∧ Option.Rel (Twins h₁ h₂) rest₁ rest₂ := by
  obtain ⟨d₁, d₂, hd₁, hd₂, hfit₁, hfit₂, hrel⟩ := H
  obtain ⟨a, rfl, rfl⟩ | ⟨hatom₁, hatom₂, hitems, hdot⟩ := hrel.inversion
  · cases hd₁
    cases hd₂
    exact .inl ⟨a, rfl, rfl⟩
  obtain ⟨nodes₁, rest₁, hshows₁, hnodes₁, hrest₁⟩ := hd₁.shows hfit₁.heads_le hatom₁
  obtain ⟨nodes₂, rest₂, hshows₂, hnodes₂, hrest₂⟩ := hd₂.shows hfit₂.heads_le hatom₂
  refine .inr ⟨nodes₁, rest₁, nodes₂, rest₂, hshows₁, hshows₂, ?_, ?_⟩
  · exact forall₂_twins hnodes₁ hnodes₂ (fun _ => hfit₁.item) (fun _ => hfit₂.item) hitems
  · rw [← hdot] at hrest₂
    cases hrest : d₁.dotted? with
    | none =>
      rw [hrest] at hrest₁ hrest₂
      cases hrest₁
      cases hrest₂
      exact .none
    | some t =>
      have hfit := hfit₁.dotted hrest
      rw [hrest] at hrest₁ hrest₂
      cases hrest₁ with | some ht₁ =>
      cases hrest₂ with | some ht₂ =>
      exact .some ⟨t, t, ht₁, ht₂, hfit, hfit, .refl t⟩

theorem Twins.printAt_eq (H : Twins h₁ h₂ n₁ n₂) (levels : Nat) :
    h₁.printAt levels n₁ = h₂.printAt levels n₂ := by
  induction levels generalizing n₁ n₂ with
  | zero => rfl
  | succ levels ih =>
    obtain ⟨a, rfl, rfl⟩ | ⟨nodes₁, rest₁, nodes₂, rest₂, hs₁, hs₂, hnodes, hrest⟩ := H.inversion
    · rfl
    rw [hs₁.printAt_eq, hs₂.printAt_eq, map_printAt_eq hnodes ih]
    cases hrest with
    | none => simp only [Option.map_none]
    | some hrest => simp only [Option.map_some, ih hrest]

theorem Twins.print_eq (H : Twins h₁ h₂ n₁ n₂) : h₁.print n₁ = h₂.print n₂ := H.printAt_eq _

theorem stringOf_of_isList (h : Heap) (hn : n.isList) : h.stringOf n = h.print n := by
  cases n with
  | atom => cases hn
  | list | cell | nil => rfl

theorem Twins.stringOf_eq (H : Twins h₁ h₂ n₁ n₂) : h₁.stringOf n₁ = h₂.stringOf n₂ := by
  obtain ⟨a, rfl, rfl⟩ | ⟨_, _, _, _, hs₁, hs₂, _⟩ := H.inversion
  · cases a <;> rfl
  · rw [h₁.stringOf_of_isList hs₁.isList, h₂.stringOf_of_isList hs₂.isList, H.print_eq]

theorem twins_simulation (h₁ h₂ : Heap) : Simulation h₁ h₂ (Twins h₁ h₂) where
  isList H := by
    obtain ⟨a, rfl, rfl⟩ | ⟨_, _, _, _, hs₁, hs₂, _⟩ := H.inversion
    · rfl
    · rw [hs₁.isList, hs₂.isList]
  string H := by
    obtain ⟨a, rfl, rfl⟩ | ⟨_, _, _, _, hs₁, hs₂, _⟩ := H.inversion
    · rfl
    · rw [Node.string?_of_isList hs₁.isList, Node.string?_of_isList hs₂.isList]
  text H := H.stringOf_eq
  head H := by
    obtain ⟨a, rfl, rfl⟩ | ⟨_, _, _, _, hs₁, hs₂, hnodes, _⟩ := H.inversion
    · rfl
    rw [hs₁.headOf_eq, hs₂.headOf_eq]
    cases hnodes with
    | nil => rfl
    | cons hx _ => exact congrArg some hx.stringOf_eq
  items H := by
    obtain ⟨a, rfl, rfl⟩ | ⟨_, _, _, _, hs₁, hs₂, hnodes, _⟩ := H.inversion
    · exact .ok .nil
    · rw [hs₁.sequence_eq, hs₂.sequence_eq]
      exact .ok hnodes

/-- Finite nodes whose contents differ only in the form of their lists, none of them a chain of more
than `maxChain` cells, cannot be told apart by their markup, their style sheet under any variables,
their printed form or the text they stand for. -/
theorem output_eq_of_related {d₁ d₂ : Datum} (H₁ : h₁.Unfolds n₁ d₁) (H₂ : h₂.Unfolds n₂ d₂)
    (hfit₁ : d₁.ChainsFit) (hfit₂ : d₂.ChainsFit) (hrel : d₁.Related d₂) (vars : Bindings) :
    h₁.markup n₁ = h₂.markup n₂ ∧ h₁.style vars n₁ = h₂.style vars n₂ ∧
      h₁.print n₁ = h₂.print n₂ ∧ h₁.stringOf n₁ = h₂.stringOf n₂ := by
  have H : Twins h₁ h₂ n₁ n₂ := ⟨d₁, d₂, H₁, H₂, hfit₁, hfit₂, hrel⟩
  have S := twins_simulation h₁ h₂
  exact ⟨S.markup_eq H, S.style_eq vars H, H.print_eq, H.stringOf_eq⟩

/-- An element written with array lists and the empty node, and with chains and the empty array
list; the dotted expression in it keeps its end. -/
theorem output_eq_of_related_element :
    let atom (name : String) : Datum := .atom (.symbol name)
    let call : Datum := .chain [atom "f"] (atom "x")
    let arrays : Datum := .list [atom "p", .list [atom "@", atom "id", atom "a"],
      .list [atom "$", call], .nil]
    let chains : Datum := .chain [atom "p", .chain [atom "@", atom "id", atom "a"] .nil,
      .list [atom "$", call], .list []] .nil
    let (h₁, n₁) := empty.store arrays
    let (h₂, n₂) := empty.store chains
    arrays.ChainsFit ∧ chains.ChainsFit ∧ arrays.Related chains ∧ h₁.markup n₁ = h₂.markup n₂ := by
  intro atom call arrays chains
  have hfit₁ : arrays.ChainsFit := by
    simp [arrays, call, atom, Datum.ChainsFit, Datum.forall_part_list, Datum.forall_part_cons,
      Datum.forall_part_atom, Datum.forall_part_nil, Datum.heads, Datum.ending, maxChain]
  have hfit₂ : chains.ChainsFit := by
    simp [chains, call, atom, Datum.ChainsFit, Datum.forall_part_list, Datum.forall_part_cons,
      Datum.forall_part_atom, Datum.forall_part_nil, Datum.heads, Datum.ending, maxChain]
  have hrel : arrays.Related chains :=
    .list (.array _) (.chain _) <| .cons (.atom _) <|
      .cons (.list (.array _) (.chain _) (Datum.forall₂_related_refl _)) <|
      .cons (.refl _) <| .cons (.list (.chain []) (.array []) .nil) .nil
  have H := output_eq_of_related (empty.store_unfolds arrays) (empty.store_unfolds chains)
    hfit₁ hfit₂ hrel .unbound
  exact ⟨hfit₁, hfit₂, hrel, H.1⟩

end Heap
end ListPress
