import ListPress.Proofs.Unfolding

/-! # Chains in any heap

In a heap with cycles a chain need not end. The heads of one that does are a list (`Heap.Heads`).
Going from tail to tail a chain ends within the limit of a walk, or there are as many cells as the
limit and another one behind them (`Heap.ends_or_leads`). In the first case a walk finds all of
them, and in the second a cell is left over. So the items of a node (`Heap.Items`) are what
`Heap.sequence` returns, whatever the heap is like, and it fails exactly on chains that are too long
(`Heap.sequence_eq_error_iff`). -/

namespace ListPress
open List

namespace Heap

/-! ## Heads -/

/-- The heads of the cells that are met going from tail to tail, up to a tail that is not a cell. -/
inductive Heads (h : Heap) : Node → List Node → Prop
  | stop {n : Node} : (∀ id, n ≠ .cell id) → Heads h n []
  | cell {id : Nat} : Heads h (h.tail id) xs → Heads h (.cell id) (h.head id :: xs)

/-- The chain goes on for ever. -/
def Endless (h : Heap) (n : Node) : Prop := ∀ xs, ¬ h.Heads n xs

/-- The chain has more cells than can be walked, or goes on for ever. -/
def TooLong (h : Heap) (n : Node) : Prop := ∀ xs, h.Heads n xs → maxChain < xs.length

/-- Going from tail to tail over the cells `ids` leads from the first node to the second. -/
inductive Leads (h : Heap) : Node → List Nat → Node → Prop
  | stay : Leads h n [] n
  | cell {id : Nat} : Leads h (h.tail id) ids m → Leads h (.cell id) (id :: ids) m

/-- Going from tail to tail, the cells `ids` are met, and then `ending`, which is not a cell. -/
structure Ends (h : Heap) (n : Node) (ids : List Nat) (ending : Node) : Prop where
  leads : h.Leads n ids ending
  ending : ∀ c, ending ≠ .cell c

/-- The items of an array list, or the heads of a chain that ends. What is no list has no items. -/
inductive Items (h : Heap) : Node → List Node → Prop
  | array : Items h (.list xs) xs
  | chain {n : Node} : (∀ xs, n ≠ .list xs) → h.Heads n xs → Items h n xs

variable {h : Heap} {n m ending : Node} {id limit : Nat} {ids : List Nat} {xs ys : List Node}
  {d : Datum}

theorem Heads.unique (H : h.Heads n xs) (H' : h.Heads n ys) : xs = ys := by
  induction H generalizing ys with
  | stop hn =>
    cases H' with
    | stop => rfl
    | cell => exact absurd rfl (hn _)
  | cell _ ih =>
    cases H' with
    | stop hn => exact absurd rfl (hn _)
    | cell H' => rw [ih H']

/-! ## Going along a chain -/

theorem Leads.heads_iff (H : h.Leads n ids m) :
    h.Heads n xs ↔ ∃ ys, h.Heads m ys ∧ xs = ids.map h.head ++ ys := by
  induction H generalizing xs with
  | stay => simp
  | @cell ids m id _ ih =>
    constructor
    · intro hxs
      cases hxs with
      | stop hn => exact absurd rfl (hn id)
      | cell hxs =>
        obtain ⟨ys, hys, rfl⟩ := ih.1 hxs
        exact ⟨ys, hys, rfl⟩
    · rintro ⟨ys, hys, rfl⟩
      exact .cell (ih.2 ⟨ys, hys, rfl⟩)

theorem Leads.trans {l : Node} {ids' : List Nat} (H : h.Leads n ids m) (H' : h.Leads m ids' l) :
    h.Leads n (ids ++ ids') l := by
  induction H with
  | stay => exact H'
  | cell _ ih => exact .cell (ih H')

theorem Leads.split {before after : List Nat} (H : h.Leads n (before ++ after) m) :
    ∃ mid, h.Leads n before mid ∧ h.Leads mid after m := by
  induction before generalizing n with
  | nil => exact ⟨n, .stay, H⟩
  | cons id before ih =>
    cases H with
    | cell H =>
      obtain ⟨mid, hbefore, hafter⟩ := ih H
      exact ⟨mid, .cell hbefore, hafter⟩

/-- A chain that comes back to one of its cells has no end. -/
theorem Leads.endless (H : h.Leads n ids (.cell id)) (hid : id ∈ ids) : h.Endless n := by
  obtain ⟨before, after, rfl⟩ := append_of_mem hid
  obtain ⟨mid, hbefore, hround⟩ := H.split
  intro xs hxs
  obtain ⟨ys, hys, -⟩ := hbefore.heads_iff.1 hxs
  cases hround with
  | cell hround =>
    -- Once round the circle, the same heads follow again.
    obtain ⟨zs, hzs, rfl⟩ := (Leads.cell hround).heads_iff.1 hys
    have hlength := congrArg length (hys.unique hzs)
    rw [length_append, length_map, length_cons] at hlength
    omega

/-! ## Walks -/

theorem walk_zero (h : Heap) (n : Node) (seen : List Node) :
    h.walk 0 n seen = ⟨seen.reverse, n⟩ := by
  cases n <;> rfl

theorem walk_of_ne_cell (hn : ∀ c, n ≠ .cell c) (limit : Nat) (seen : List Node) :
    h.walk limit n seen = ⟨seen.reverse, n⟩ := by
  cases n with
  | cell c => exact absurd rfl (hn c)
  | atom | list | nil => cases limit <;> rfl

/-- A walk passes over the cells that lead on, and goes on from there. -/
theorem Leads.walk_eq (H : h.Leads n ids m) (limit : Nat) (seen : List Node) :
    h.walk (ids.length + limit) n seen = h.walk limit m ((ids.map h.head).reverse ++ seen) := by
  induction H generalizing seen with
  | stay => simp
  | cell _ ih =>
    rw [length_cons, Nat.add_right_comm, walk, ih, map_cons, reverse_cons, append_assoc,
      singleton_append]

theorem Ends.walk_eq (H : h.Ends n ids ending) (hle : ids.length ≤ limit) :
    h.walk limit n [] = ⟨ids.map h.head, ending⟩ := by
  obtain ⟨more, rfl⟩ := Nat.exists_eq_add_of_le hle
  rw [H.leads.walk_eq, walk_of_ne_cell H.ending, append_nil, reverse_reverse]

/-- At the limit a walk stops, whatever comes next. -/
theorem Leads.walk_length_eq (H : h.Leads n ids m) :
    h.walk ids.length n [] = ⟨ids.map h.head, m⟩ := by
  have hwalk := H.walk_eq 0 []
  rwa [Nat.add_zero, walk_zero, append_nil, reverse_reverse] at hwalk

theorem ends_or_leads (h : Heap) (limit : Nat) (n : Node) :
    (∃ ids ending, h.Ends n ids ending ∧ ids.length ≤ limit) ∨
      ∃ ids c, h.Leads n ids (.cell c) ∧ ids.length = limit := by
  induction limit generalizing n with
  | zero =>
    cases n with
    | cell id => exact .inr ⟨[], id, .stay, rfl⟩
    | atom | list | nil => exact .inl ⟨[], _, ⟨.stay, by simp⟩, Nat.le_refl 0⟩
  | succ limit ih =>
    cases n with
    | cell id =>
      rcases ih (h.tail id) with ⟨ids, ending, H, hle⟩ | ⟨ids, c, H, hlength⟩
      · exact .inl ⟨id :: ids, ending, ⟨.cell H.leads, H.ending⟩, Nat.succ_le_succ hle⟩
      · exact .inr ⟨id :: ids, c, .cell H, congrArg (· + 1) hlength⟩
    | atom | list | nil => exact .inl ⟨[], _, ⟨.stay, by simp⟩, Nat.zero_le _⟩

theorem Ends.sequence_eq (H : h.Ends (.cell id) ids ending) (hle : ids.length ≤ maxChain) :
    h.sequence (.cell id) = .ok (ids.map h.head) := by
  rw [sequence, chain, H.walk_eq hle]
  split
  · next heq =>
    injection heq with _ heq
    exact absurd heq (H.ending _)
  · next heq =>
    injection heq with heq _
    rw [heq]

theorem Leads.sequence_eq {c : Nat} (H : h.Leads (.cell id) ids (.cell c))
    (hlength : ids.length = maxChain) : h.sequence (.cell id) = .error .chainTooLong := by
  rw [sequence, chain, ← hlength, H.walk_length_eq]

/-! ## Items of a cell -/

theorem Ends.heads (H : h.Ends n ids ending) : h.Heads n (ids.map h.head) :=
  H.leads.heads_iff.2 ⟨[], .stop H.ending, (append_nil _).symm⟩

/-- A chain that ends can be walked if it has at most `maxChain` cells. -/
theorem Heads.sequence_eq (H : h.Heads (.cell id) xs) : h.sequence (.cell id) =
    if xs.length ≤ maxChain then .ok xs else .error .chainTooLong := by
  rcases h.ends_or_leads maxChain (.cell id) with
    ⟨ids, ending, hends, hle⟩ | ⟨ids, c, hleads, hlength⟩
  · rw [H.unique hends.heads, length_map, if_pos hle, hends.sequence_eq hle]
  · obtain ⟨ys, hys, rfl⟩ := hleads.heads_iff.1 H
    cases hys with
    | stop hn => exact absurd rfl (hn c)
    | cell =>
      rw [hleads.sequence_eq hlength, if_neg]
      rw [length_append, length_map, length_cons]
      omega

theorem Endless.sequence_eq (H : h.Endless (.cell id)) :
    h.sequence (.cell id) = .error .chainTooLong := by
  rcases h.ends_or_leads maxChain (.cell id) with
    ⟨ids, ending, hends, -⟩ | ⟨ids, c, hleads, hlength⟩
  · exact absurd hends.heads (H _)
  · exact hleads.sequence_eq hlength

theorem sequence_eq_error_iff {e : StructureError} : h.sequence n = .error e ↔
    e = .chainTooLong ∧ ∃ id, n = .cell id ∧ h.TooLong n := by
  cases n with
  | list | atom | nil => simp [sequence]
  | cell id =>
    by_cases hend : h.Endless (.cell id)
    · have hlong : h.TooLong (.cell id) := fun xs hxs => absurd hxs (hend xs)
      simp [hend.sequence_eq, hlong, eq_comm]
    · obtain ⟨xs, hxs⟩ := not_forall_not.1 hend
      have hlong : h.TooLong (.cell id) ↔ ¬ xs.length ≤ maxChain := by
        rw [Nat.not_le]
        exact ⟨fun H => H xs hxs, fun hlt ys hys => hxs.unique hys ▸ hlt⟩
      rw [hxs.sequence_eq, hlong]
      split <;> simp_all [eq_comm]

/-! ## Items -/

theorem Items.unique (H : h.Items n xs) (H' : h.Items n ys) : xs = ys := by
  cases H with
  | array =>
    cases H' with
    | array => rfl
    | chain hn => exact absurd rfl (hn _)
  | chain hn H =>
    cases H' with
    | array => exact absurd rfl (hn _)
    | chain _ H' => exact H.unique H'

theorem items_of_sequence (H : h.sequence n = .ok xs) : h.Items n xs := by
  cases n with
  | list =>
    cases H
    exact .array
  | atom | nil =>
    cases H
    exact .chain (by simp) (.stop (by simp))
  | cell id =>
    by_cases hend : h.Endless (.cell id)
    · rw [hend.sequence_eq] at H
      cases H
    · obtain ⟨ys, hys⟩ := not_forall_not.1 hend
      rw [hys.sequence_eq] at H
      split at H
      · cases H
        exact .chain (by simp) hys
      · cases H

/-! ## Finite nodes -/

theorem Unfolds.heads : ∀ {n : Node} {d : Datum}, h.Unfolds n d →
    ∃ nodes, h.Heads n nodes ∧ Forall₂ h.Unfolds nodes d.heads
  | _, .cons a b, H => by
    cases H with
    | cell ha hb =>
      obtain ⟨nodes, hnodes, hheads⟩ := hb.heads
      exact ⟨_, .cell hnodes, .cons ha hheads⟩
  | _, .atom _, H | _, .list _, H | _, .nil, H => by
    cases H
    exact ⟨[], .stop (by simp), .nil⟩

theorem Unfolds.items (H : h.Unfolds n d) (hn : h.Items n xs) : Forall₂ h.Unfolds xs d.items := by
  cases hn with
  | array =>
    cases H with
    | list hitems => exact hitems
  | chain hlist hheads =>
    obtain ⟨nodes, hnodes, hrel⟩ := H.heads
    rw [hheads.unique hnodes]
    cases H with
    | list => exact absurd rfl (hlist _)
    | atom | nil | cell => exact hrel

end Heap
end ListPress
