import ListPress.Proofs.Unfolding

/-! # The text of a datum

Printing goes over the nodes of a heap, with limits on the levels and on the cells of a chain. For a
finite node it can be said of the datum alone: where the levels suffice, the printed form of a node
is the text of the part of its datum that is shown (`Heap.Unfolds.printAt_eq`). -/

namespace ListPress
open List

namespace Datum

/-- What stands for the rest of a chain that is too long. -/
def ellipsis : Datum := .symbol "..."

mutual
/-- The part of a datum that is printed: a chain that is too long ends in `...`. -/
def shown : Datum → Datum
  | .atom a => .atom a
  | .nil => .nil
  | .list xs => .list (shownItems xs)
  | .cons a b => .cons a.shown (b.shownTail (maxChain - 1))

def shownItems : List Datum → List Datum
  | [] => []
  | x :: xs => x.shown :: shownItems xs

/-- The rest of a chain, of which so many cells can still be printed. -/
def shownTail : Datum → (cells : Nat) → Datum
  | .cons a b, cells + 1 => .cons a.shown (b.shownTail cells)
  | .cons _ _, 0 => .cons ellipsis .nil
  | .atom a, _ => .atom a
  | .nil, _ => .nil
  | .list xs, _ => .list (shownItems xs)
end

mutual
/-- The printed form of a datum, without limits. -/
def text : Datum → List Char
  | .atom a => a.print.toList
  | .nil => ['(', ')']
  | .list xs => textList xs
  | .cons a b => '(' :: (a.text ++ b.textTail)

def textList : List Datum → List Char
  | [] => ['(', ')']
  | x :: xs => '(' :: (x.text ++ textItems xs)

/-- The further items of a list, and its end. -/
def textItems : List Datum → List Char
  | [] => [')']
  | x :: xs => ' ' :: (x.text ++ textItems xs)

/-- The rest of a chain, and its end. -/
def textTail : Datum → List Char
  | .cons a b => ' ' :: (a.text ++ b.textTail)
  | .nil => [')']
  | .atom a => ' ' :: '.' :: ' ' :: (a.print.toList ++ [')'])
  | .list xs => ' ' :: '.' :: ' ' :: (textList xs ++ [')'])
end

/-- Items that each stand after a space. -/
def spaced (xs : List Datum) : List Char := xs.flatMap fun x => ' ' :: x.text

/-! ## Chains and items -/

theorem shownItems_eq (xs : List Datum) : shownItems xs = xs.map shown := by
  induction xs with
  | nil => rfl
  | cons x xs ih => rw [shownItems, ih, map_cons]

theorem shownTail_of_heads_nil {d : Datum} (H : d.heads = []) (cells : Nat) :
    d.shownTail cells = d.shown := by
  cases d with
  | cons => cases H
  | atom | list | nil => rfl

/-- The rest of a chain is shown whole if it fits. -/
theorem shownTail_of_le {d : Datum} {cells : Nat} (H : d.heads.length ≤ cells) :
    d.shownTail cells = chain (d.heads.map shown) d.ending.shown := by
  cases d with
  | cons a b =>
    cases cells with
    | zero => cases H
    | succ cells =>
      rw [shownTail, shownTail_of_le (Nat.le_of_succ_le_succ H), heads, ending, map_cons,
        chain_cons]
  | atom | list | nil => rw [shownTail_of_heads_nil rfl]; rfl

theorem shownTail_of_lt {d : Datum} {cells : Nat} (H : cells < d.heads.length) :
    d.shownTail cells = chain ((d.heads.take cells).map shown ++ [ellipsis]) .nil := by
  cases d with
  | cons a b =>
    cases cells with
    | zero => rfl
    | succ cells =>
      rw [shownTail, shownTail_of_lt (Nat.lt_of_succ_lt_succ H), heads, take_succ_cons, map_cons,
        cons_append, chain_cons]
  | atom | list | nil => cases H

theorem shown_of_le {d : Datum} (hd : d.heads ≠ []) (H : d.heads.length ≤ maxChain) :
    d.shown = chain (d.heads.map shown) d.ending.shown := by
  cases d with
  | cons a b =>
    rw [shown, shownTail_of_le (Nat.le_sub_one_of_lt H), heads, ending, map_cons, chain_cons]
  | atom | list | nil => exact absurd rfl hd

theorem shown_of_lt {d : Datum} (H : maxChain < d.heads.length) :
    d.shown = chain ((d.heads.take maxChain).map shown ++ [ellipsis]) .nil := by
  cases d with
  | cons a b =>
    have hmax : maxChain = maxChain - 1 + 1 := rfl
    rw [shown, shownTail_of_lt (by rw [heads, length_cons] at H; omega), heads, hmax,
      take_succ_cons, map_cons, cons_append, chain_cons]
    rfl
  | atom | list | nil => cases H

/-- The chain of a datum is printed whole: it is not too long, or it is proper, has one cell too
many, and the last head is what stands for the rest anyway. -/
def ShownWhole (e : Datum) : Prop :=
  e.heads.length ≤ maxChain ∨
    e.heads.length = maxChain + 1 ∧ e.ending = .nil ∧ e.heads.getLast? = some ellipsis

theorem map_eq_self_iff {f : α → α} {xs : List α} : xs.map f = xs ↔ ∀ x ∈ xs, f x = x := by
  induction xs with
  | nil => simp
  | cons x xs ih => simp [ih]

/-- A list that ends in `z`, with one more item than there are in `xs`. -/
theorem append_singleton_eq_iff {xs ys : List α} {z : α} {n : Nat} (hxs : xs.length = n) :
    xs ++ [z] = ys ↔ ys.length = n + 1 ∧ ys.getLast? = some z ∧ xs = ys.take n := by
  constructor
  · rintro rfl
    simp [hxs]
  · rintro ⟨hlength, hlast, rfl⟩
    rw [← Nat.add_sub_cancel (n := n) (m := 1), ← hlength, ← dropLast_eq_take]
    exact dropLast_append_getLast? z hlast

theorem chain_eq_iff {d t : Datum} {xs : List Datum} (ht : t.heads = []) :
    chain xs t = d ↔ xs = d.heads ∧ t = d.ending := by
  constructor
  · rintro rfl
    rw [heads_chain, ending_chain, ht, append_nil, ending_of_heads_nil ht]
    exact ⟨rfl, rfl⟩
  · rintro ⟨rfl, rfl⟩
    exact d.chain_heads_ending

theorem heads_shown_eq_nil {d : Datum} (hd : d.heads = []) : d.shown.heads = [] := by
  cases d with
  | cons => cases hd
  | atom | list | nil => rfl

theorem heads_ending_eq_nil (d : Datum) : d.ending.heads = [] := by
  cases d with
  | cons a b => exact heads_ending_eq_nil b
  | atom | list | nil => rfl

/-- A datum is shown whole exactly if all its chains are. -/
theorem shown_eq_self_iff {d : Datum} : d.shown = d ↔ ∀ k e, Part k e d → e.ShownWhole := by
  have hnil {d : Datum} (hd : d.heads = []) : d.ShownWhole := .inl (by simp [hd])
  induction d using chainInduction with
  | atom => exact iff_of_true rfl (forall_part_atom.2 (hnil rfl))
  | nil => exact iff_of_true rfl (forall_part_nil.2 (hnil rfl))
  | list xs ih =>
    rw [shown, shownItems_eq, list.injEq, map_eq_self_iff, forall_part_list]
    exact ⟨fun H => ⟨hnil rfl, fun x hx => (ih x hx).1 (H x hx)⟩,
      fun H x hx => (ih x hx).2 (H.2 x hx)⟩
  | chain d hd ih hending =>
    rw [forall_part_chain hd]
    by_cases hle : d.heads.length ≤ maxChain
    · rw [shown_of_le hd hle, chain_eq_iff (heads_shown_eq_nil d.heads_ending_eq_nil),
        map_eq_self_iff]
      exact ⟨fun H => ⟨.inl hle, fun x hx => (ih x hx).1 (H.1 x hx), hending.1 H.2⟩,
        fun H => ⟨fun x hx => (ih x hx).2 (H.2.1 x hx), hending.2 H.2.2⟩⟩
    · have hlt := Nat.not_le.1 hle
      rw [shown_of_lt hlt, chain_eq_iff rfl]
      have hcount : ((d.heads.take maxChain).map shown).length = maxChain := by
        rw [length_map, length_take_of_le (Nat.le_of_lt hlt)]
      have htake : (d.heads.take maxChain).map shown = d.heads.take maxChain ↔
          ∀ x ∈ d.heads.take maxChain, ∀ k e, Part k e x → e.ShownWhole := by
        rw [map_eq_self_iff]
        exact ⟨fun H x hx => (ih x (mem_of_mem_take hx)).1 (H x hx),
          fun H x hx => (ih x (mem_of_mem_take hx)).2 (H x hx)⟩
      constructor
      · rintro ⟨hheads, hend⟩
        obtain ⟨hlength, hlast, hinit⟩ := (append_singleton_eq_iff hcount).1 hheads
        refine ⟨.inr ⟨hlength, hend.symm, hlast⟩, ?_, ?_⟩
        · rw [← hheads, forall_mem_append, hinit]
          exact ⟨htake.1 hinit, forall_mem_singleton.2 (forall_part_atom.2 (hnil rfl))⟩
        · rw [← hend]
          exact forall_part_nil.2 (hnil rfl)
      · rintro ⟨hwhole, hxs, -⟩
        obtain ⟨hlength, hend, hlast⟩ := hwhole.resolve_left hle
        have hinit := htake.2 fun x hx => hxs x (mem_of_mem_take hx)
        exact ⟨(append_singleton_eq_iff hcount).2 ⟨hlength, hlast, hinit⟩, hend.symm⟩

theorem shown_eq_self {d : Datum} (H : d.ChainsFit) : d.shown = d :=
  shown_eq_self_iff.2 fun k e he => .inl (H k e he)

theorem spaced_cons (x : Datum) (xs : List Datum) (cs : List Char) :
    spaced (x :: xs) ++ cs = ' ' :: (x.text ++ (spaced xs ++ cs)) := by
  rw [spaced, flatMap_cons, cons_append, cons_append, append_assoc, spaced]

theorem textItems_eq (xs : List Datum) : textItems xs = spaced xs ++ [')'] := by
  induction xs with
  | nil => rfl
  | cons x xs ih => rw [textItems, ih, spaced_cons]

theorem textTail_chain (xs : List Datum) (t : Datum) :
    (chain xs t).textTail = spaced xs ++ t.textTail := by
  induction xs with
  | nil => rfl
  | cons x xs ih => rw [chain_cons, textTail, ih, spaced_cons]

theorem text_list_cons (x : Datum) (xs : List Datum) :
    (list (x :: xs)).text = '(' :: (x.text ++ (spaced xs ++ [')'])) := by
  rw [text, textList, textItems_eq]

theorem text_chain_cons (x : Datum) (xs : List Datum) (t : Datum) :
    (chain (x :: xs) t).text = '(' :: (x.text ++ (spaced xs ++ t.textTail)) := by
  rw [chain_cons, text, textTail_chain]

end Datum

/-! ## Printing -/

theorem intercalate_space (x : List Char) (xs : List (List Char)) :
    [' '].intercalate (x :: xs) = x ++ xs.flatMap (' ' :: ·) := by
  induction xs generalizing x with
  | nil => simp
  | cons y ys ih => rw [intercalate_cons_cons, ih, flatMap_cons, append_assoc, cons_append]; rfl

namespace Heap
variable {h : Heap} {n : Node} {d : Datum} {levels : Nat}

/-- The items of a list, once the text of each of them is known. -/
theorem toList_intercalate_eq {nodes : List Node} {x : Datum} {xs : List Datum}
    (H : nodes.map (fun n => (h.printAt levels n).toList) = (x :: xs).map fun x => x.shown.text) :
    (" ".intercalate (nodes.map (h.printAt levels))).toList =
      x.shown.text ++ Datum.spaced (xs.map Datum.shown) := by
  have hmap : (nodes.map (h.printAt levels)).map String.toList =
      (x :: xs).map fun x => x.shown.text := by rw [map_map]; exact H
  rw [String.toList_intercalate, hmap, map_cons]
  exact (intercalate_space ..).trans (by rw [Datum.spaced, flatMap_map, flatMap_map])

theorem Unfolds.printAt_eq (H : h.Unfolds n d) (hlevels : ∀ k e, Datum.Part k e d → k < levels) :
    (h.printAt levels n).toList = d.shown.text := by
  induction levels generalizing n d with
  | zero => cases hlevels 0 d .self
  | succ levels ih =>
    -- the same for all that is one level down
    have hitems {nodes xs} (hnodes : Forall₂ h.Unfolds nodes xs)
        (hxs : ∀ x ∈ xs, ∀ k e, Datum.Part k e x → Datum.Part (k + 1) e d) :
        nodes.map (fun n => (h.printAt levels n).toList) = xs.map fun x => x.shown.text :=
      map_eq_of_forall₂ hnodes fun n x hx hn => ih hn fun k e he =>
        Nat.lt_of_succ_lt_succ (hlevels _ _ (hxs x hx k e he))
    cases H with
    | atom => rfl
    | nil => simp [printAt, Datum.shown, Datum.text]
    | @list nodes xs hnodes =>
      have hmap := hitems hnodes fun x hx k e he => .item hx he
      cases xs with
      | nil =>
        cases hnodes
        simp [printAt, Datum.shown, Datum.shownItems, Datum.text, Datum.textList]
      | cons x xs =>
        simp only [printAt, String.toList_append, toList_intercalate_eq hmap]
        rw [Datum.shown, Datum.shownItems_eq, map_cons, Datum.text_list_cons]
        simp
    | @cell a b id ha hb =>
      obtain ⟨nodes, rest, hchain, hnodes, hrest⟩ := (Unfolds.cell ha hb).chain_eq
      have hmax : maxChain = maxChain - 1 + 1 := rfl
      have htake : (Datum.cons a b).heads.take maxChain = a :: b.heads.take (maxChain - 1) := by
        rw [Datum.heads, hmax, take_succ_cons]
        rfl
      have hmap := hitems hnodes fun x hx k e he => .head (mem_of_mem_take hx) he
      rw [htake] at hmap
      rw [printAt_cell, hchain]
      simp only [String.toList_append, toList_intercalate_eq hmap]
      split at hrest
      · next hle =>
        rw [take_of_length_le hle] at htake
        rw [Datum.shown_of_le (d := .cons a b) (cons_ne_nil _ _) hle, htake, map_cons,
          Datum.text_chain_cons]
        have hlast : ∀ k e, Datum.Part k e b.ending → k < levels := fun k e he =>
          Nat.lt_of_succ_lt_succ (hlevels _ _ (.ending (cons_ne_nil _ _) he))
        rw [Datum.ending] at hrest ⊢
        generalize hb : b.ending = t at hrest hlast
        have hprint := ih hrest hlast
        cases hrest with
        | nil => simp [restText, endingText, Datum.shown, Datum.textTail]
        | atom | list =>
          simp only [Datum.shown, Datum.text] at hprint
          simp [restText, endingText, Datum.shown, Datum.textTail, hprint]
        | cell => exact absurd hb (Datum.ending_ne_cons b)
      · next hlt =>
        obtain ⟨id, rfl⟩ := hrest
        rw [Datum.shown_of_lt (Nat.not_le.1 hlt), htake, map_cons, cons_append,
          Datum.text_chain_cons, Datum.spaced, Datum.spaced, flatMap_append]
        simp [restText, Datum.ellipsis, Datum.symbol, Datum.text, Datum.textTail, Atom.print]

end Heap
end ListPress
