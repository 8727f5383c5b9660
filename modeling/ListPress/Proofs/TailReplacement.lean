import ListPress.Proofs.SameContent

/-! # Replacing a tail

Cells are shared, so a new tail is seen by every node that the cell can be reached from. Other nodes
keep their items, texts and JSON, since no walk leaves the cells that can be reached
(`Heap.same_setTail`). A chain that goes through the cell is cut there and goes on with the new tail
(`Heap.Leads.onto_setTail`). -/

namespace ListPress
open List

namespace Heap

/-- The second node can be reached from the first one through items, heads and tails. -/
inductive Reaches (h : Heap) : Node → Node → Prop
  | self : Reaches h n n
  | item : x ∈ xs → Reaches h x m → Reaches h (.list xs) m
  | head {id : Nat} : Reaches h (h.head id) m → Reaches h (.cell id) m
  | tail {id : Nat} : Reaches h (h.tail id) m → Reaches h (.cell id) m

variable {h : Heap} {n m : Node} {c id : Nat} {ids : List Nat}

/-! ## Cells -/

theorem cell_setTail (h : Heap) (c : Nat) (t : Node) (id : Nat) :
    (h.setTail c t).cell id =
      if id = c ∧ c < h.cells.size then { h.cell id with tail := t } else h.cell id := by
  simp only [setTail, cell, Array.getD_eq_getD_getElem?, Array.getElem?_modify]
  grind

@[simp] theorem head_setTail (h : Heap) (c : Nat) (t : Node) (id : Nat) :
    (h.setTail c t).head id = h.head id := by
  rw [head, cell_setTail, head]
  split <;> rfl

theorem tail_setTail_of_ne (h : Heap) (t : Node) (hid : id ≠ c) :
    (h.setTail c t).tail id = h.tail id := by
  rw [tail, cell_setTail, if_neg (fun hc => hid hc.1), tail]

theorem tail_setTail_self (t : Node) (hc : c < h.cells.size) : (h.setTail c t).tail c = t := by
  rw [tail, cell_setTail, if_pos ⟨rfl, hc⟩]

/-! ## Nodes that do not reach the cell -/

theorem ne_of_not_reaches (H : ¬ h.Reaches (.cell id) (.cell c)) : id ≠ c := by
  rintro rfl
  exact H .self

theorem same_setTail (t : Node) (H : ¬ h.Reaches n (.cell c)) : Same h (h.setTail c t) n n := by
  refine ⟨fun m m' => m = m' ∧ ¬ h.Reaches m (.cell c), ?_, rfl, H⟩
  rintro m _ ⟨rfl, hm⟩
  cases m with
  | atom a => exact .atom a
  | nil => exact .nil
  | list xs => exact .list (forall₂_same.2 fun x hx => ⟨rfl, fun hreach => hm (.item hx hreach)⟩)
  | cell id =>
    refine .cell ⟨?_, fun hreach => hm (.head hreach)⟩ ⟨?_, fun hreach => hm (.tail hreach)⟩
    · rw [head_setTail]
    · rw [tail_setTail_of_ne h t (ne_of_not_reaches hm)]

theorem walk_setTail (t : Node) (H : ¬ h.Reaches n (.cell c)) (limit : Nat) (seen : List Node) :
    (h.setTail c t).walk limit n seen = h.walk limit n seen := by
  induction limit generalizing n seen with
  | zero => rfl
  | succ limit ih =>
    cases n with
    | atom | list | nil => rfl
    | cell id =>
      rw [walk, walk, head_setTail, tail_setTail_of_ne h t (ne_of_not_reaches H)]
      exact ih (fun hreach => H (.tail hreach)) _

theorem sequence_setTail (t : Node) (H : ¬ h.Reaches n (.cell c)) :
    (h.setTail c t).sequence n = h.sequence n := by
  cases n with
  | atom | list | nil => rfl
  | cell id => rw [sequence, chain, walk_setTail t H, sequence, chain]

/-! ## Chains through the cell -/

theorem Leads.setTail (t : Node) (H : h.Leads n ids m) (hids : c ∉ ids) :
    (h.setTail c t).Leads n ids m := by
  induction H with
  | stay => exact .stay
  | cell _ ih =>
    obtain ⟨hid, hids⟩ := not_or.1 (mem_cons.not.1 hids)
    refine .cell ?_
    rw [tail_setTail_of_ne h t (Ne.symm hid)]
    exact ih hids

/-- A chain that comes to the cell goes over it to the new tail. -/
theorem Leads.onto_setTail (t : Node) (H : h.Leads n ids (.cell c)) (hids : c ∉ ids)
    (hc : c < h.cells.size) : (h.setTail c t).Leads n (ids ++ [c]) t := by
  refine (H.setTail t hids).trans (.cell ?_)
  rw [tail_setTail_self t hc]
  exact .stay

theorem Leads.eq_cell (H : h.Leads n ids (.cell c)) : ∃ id, n = .cell id := by
  cases H with
  | stay => exact ⟨c, rfl⟩
  | cell => exact ⟨_, rfl⟩

/-- A new tail changes nothing for nodes that do not reach the cell. A chain that comes to the cell
over other cells has the heads of these, the head of the cell and the heads of the chain from the
new tail on, if they are not too many. -/
theorem setTail_frame (h : Heap) (c : Nat) (t : Node) :
    (∀ n, ¬ h.Reaches n (.cell c) →
      (h.setTail c t).sequence n = h.sequence n ∧ (h.setTail c t).print n = h.print n ∧
      (h.setTail c t).toJson n = h.toJson n ∧ (h.setTail c t).markup n = h.markup n ∧
      ∀ vars, (h.setTail c t).style vars n = h.style vars n) ∧
    ∀ n ids, c < h.cells.size → h.Leads n ids (.cell c) → c ∉ ids →
      (∀ xs, (h.setTail c t).Heads t xs →
        (h.setTail c t).sequence n =
          if (ids.map h.head ++ h.head c :: xs).length ≤ maxChain then
            .ok (ids.map h.head ++ h.head c :: xs)
          else .error .chainTooLong) ∧
      ((h.setTail c t).Endless t → (h.setTail c t).sequence n = .error .chainTooLong) := by
  refine ⟨fun n hn => ?_, fun n ids hc H hids => ?_⟩
  · have S := same_simulation h (h.setTail c t)
    have hsame := same_setTail t hn
    exact ⟨sequence_setTail t hn, hsame.print_eq.symm, (hsame.toJsonAt_eq _).symm,
      (S.markup_eq hsame).symm, fun vars => (S.style_eq vars hsame).symm⟩
  · have hleads := H.onto_setTail t hids hc
    obtain ⟨id, rfl⟩ := H.eq_cell
    have hheads : (ids ++ [c]).map (h.setTail c t).head = ids.map h.head ++ [h.head c] := by simp
    refine ⟨fun xs hxs => ?_, fun hend => ?_⟩
    · have hitems := hleads.heads_iff.2 ⟨xs, hxs, rfl⟩
      rw [hheads, append_assoc, singleton_append] at hitems
      exact hitems.sequence_eq
    · refine Endless.sequence_eq fun ys hys => ?_
      obtain ⟨xs, hxs, -⟩ := hleads.heads_iff.1 hys
      exact hend xs hxs

/-- A chain of two cells gets an array list for its end, or its own first cell. A list with another
chain in it, which is circular, does not reach them. -/
theorem setTail_frame_circular :
    let h : Heap := ⟨#[⟨.symbol "a", .cell 1⟩, ⟨.symbol "b", .nil⟩, ⟨.symbol "x", .cell 2⟩]⟩
    (h.setTail 1 (.cell 0)).print (.list [.cell 2]) = h.print (.list [.cell 2]) ∧
      (h.setTail 1 (.list [.cell 0])).sequence (.cell 0) = .ok [.symbol "a", .symbol "b"] ∧
      (h.setTail 1 (.cell 0)).sequence (.cell 0) = .error .chainTooLong := by
  intro h
  have hapart : ∀ n m, h.Reaches n m → n = .list [.cell 2] ∨ n = .cell 2 ∨ n = .symbol "x" →
      m ≠ .cell 1 := by
    intro n m H
    induction H with
    | self => rintro (rfl | rfl | rfl) <;> simp [Node.symbol]
    | item hx _ ih =>
      rintro (heq | heq | heq) <;> cases heq
      exact ih (.inr (.inl (mem_singleton.1 hx)))
    | head _ ih =>
      rintro (heq | heq | heq) <;> cases heq
      exact ih (.inr (.inr rfl))
    | tail _ ih =>
      rintro (heq | heq | heq) <;> cases heq
      exact ih (.inr (.inl rfl))
  have hleads : h.Leads (.cell 0) [0] (.cell 1) := .cell .stay
  have hround : (h.setTail 1 (.cell 0)).Leads (.cell 0) [0, 1] (.cell 0) :=
    hleads.onto_setTail (.cell 0) (by simp) (by simp [h])
  refine ⟨?_, ?_, ?_⟩
  · exact ((setTail_frame h 1 (.cell 0)).1 _ fun hreach => hapart _ _ hreach (.inl rfl) rfl).2.1
  · exact ((setTail_frame h 1 _).2 _ [0] (by simp [h]) hleads (by simp)).1 [] (.stop (by simp))
  · exact ((setTail_frame h 1 _).2 _ [0] (by simp [h]) hleads (by simp)).2
      (hround.endless (by simp))

end Heap
end ListPress
