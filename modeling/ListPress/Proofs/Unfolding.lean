import ListPress.Datum.Basic
import ListPress.Node.Printer
import ListPress.Proofs.Traversal

/-! # Finite nodes

A node is finite when following its items, heads and tails comes to an end; it then unfolds to a
datum, which is what the node holds with the identities of its cells forgotten (`Heap.Unfolds`).
Walking the chain of such a node gives the heads and the end of its datum (`Heap.Unfolds.chain_eq`),
and a datum that is stored in a heap unfolds to itself (`Heap.store_unfolds`). -/

namespace ListPress
open List

namespace Datum

/-! ## The cells of a datum -/

/-- The heads of the chain a datum starts with. -/
def heads : Datum → List Datum
  | .cons a b => a :: b.heads
  | _ => []

/-- What follows the last cell of a chain. -/
def ending : Datum → Datum
  | .cons _ b => b.ending
  | d => d

/-- The items of a list, of either form. -/
def items : Datum → List Datum
  | .list xs => xs
  | d => d.heads

/-- What is written after the dot: the end of a chain that is not the empty node. -/
def dotted? : Datum → Option Datum
  | .cons _ b =>
    match b.ending with
    | .nil => none
    | t => some t
  | _ => none

/-- `Part k e d`: the datum `e` is `d` or lies inside it, `k` levels down. The items of an array
list are one level below it; the heads and the end of a chain are one level below its first cell. -/
inductive Part : Nat → Datum → Datum → Prop
  | self : Part 0 d d
  | item : x ∈ xs → Part k e x → Part (k + 1) e (.list xs)
  | head {d : Datum} : x ∈ d.heads → Part k e x → Part (k + 1) e d
  | ending {d : Datum} : d.heads ≠ [] → Part k e d.ending → Part (k + 1) e d

/-- No chain in the datum is too long to be walked. -/
def ChainsFit (d : Datum) : Prop := ∀ k e, Part k e d → e.heads.length ≤ maxChain

variable {d e t x : Datum} {xs : List Datum} {k : Nat}

@[simp] theorem chain_nil (t : Datum) : chain [] t = t := rfl

@[simp] theorem chain_cons (x : Datum) (xs : List Datum) (t : Datum) :
    chain (x :: xs) t = .cons x (chain xs t) := by
  simp [chain, consReverse]

theorem chain_append (xs ys : List Datum) (t : Datum) :
    chain (xs ++ ys) t = chain xs (chain ys t) := by
  induction xs with
  | nil => rfl
  | cons x xs ih => rw [cons_append, chain_cons, chain_cons, ih]

theorem consReverse_eq (xs : List Datum) (t : Datum) : consReverse xs t = chain xs.reverse t := by
  rw [chain, reverse_reverse]

theorem heads_chain (xs : List Datum) (t : Datum) : (chain xs t).heads = xs ++ t.heads := by
  induction xs with
  | nil => rfl
  | cons x xs ih => rw [chain_cons, heads, ih, cons_append]

theorem ending_chain (xs : List Datum) (t : Datum) : (chain xs t).ending = t.ending := by
  induction xs with
  | nil => rfl
  | cons x xs ih => rw [chain_cons, ending, ih]

theorem chain_heads_ending (d : Datum) : chain d.heads d.ending = d := by
  cases d with
  | atom | list | nil => rfl
  | cons a b => rw [heads, ending, chain_cons, chain_heads_ending b]

theorem ending_of_heads_nil (hd : d.heads = []) : d.ending = d := by
  simpa [hd] using d.chain_heads_ending

theorem ending_ne_cons (d : Datum) {a b : Datum} : d.ending ≠ .cons a b := by
  cases d with
  | atom | list | nil => exact Datum.noConfusion
  | cons _ t => exact ending_ne_cons t

theorem items_of_heads_ne_nil (hd : d.heads ≠ []) : d.items = d.heads := by
  cases d with
  | cons => rfl
  | atom | list | nil => exact absurd rfl hd

theorem dotted?_mem_iff : t ∈ d.dotted? ↔ d.heads ≠ [] ∧ d.ending = t ∧ t ≠ .nil := by
  unfold dotted?
  split
  · split <;> simp_all [heads, ending]; grind
  · simp_all [heads]

theorem Part.trans {f : Datum} {j : Nat} (H : Part k e d) (H' : Part j f e) :
    ∃ i, Part i f d := by
  induction H with
  | self => exact ⟨j, H'⟩
  | item hx _ ih => obtain ⟨i, hi⟩ := ih H'; exact ⟨_, .item hx hi⟩
  | head hx _ ih => obtain ⟨i, hi⟩ := ih H'; exact ⟨_, .head hx hi⟩
  | ending hd _ ih => obtain ⟨i, hi⟩ := ih H'; exact ⟨_, .ending hd hi⟩

theorem Part.of_item (hx : x ∈ d.items) (H : Part k e x) : Part (k + 1) e d := by
  cases d with
  | list => exact .item hx H
  | atom | cons | nil => exact .head hx H

theorem Part.of_dotted (ht : t ∈ d.dotted?) (H : Part k e t) : Part (k + 1) e d := by
  obtain ⟨hd, rfl, -⟩ := dotted?_mem_iff.1 ht
  exact .ending hd H

theorem Part.snoc (H : Part k e d) (hx : x ∈ e.items) : Part (k + 1) x d := by
  induction H with
  | self => exact .of_item hx .self
  | item hy _ ih => exact .item hy (ih hx)
  | head hy _ ih => exact .head hy (ih hx)
  | ending hd _ ih => exact .ending hd (ih hx)

section
variable {P : Nat → Datum → Prop}

theorem forall_part_atom {a : Atom} : (∀ k e, Part k e (.atom a) → P k e) ↔ P 0 (.atom a) := by
  refine ⟨fun H => H _ _ .self, fun H k e h => ?_⟩
  cases h with
  | self => exact H
  | head hx => cases hx
  | ending hd => exact absurd rfl hd

theorem forall_part_nil : (∀ k e, Part k e .nil → P k e) ↔ P 0 .nil := by
  refine ⟨fun H => H _ _ .self, fun H k e h => ?_⟩
  cases h with
  | self => exact H
  | head hx => cases hx
  | ending hd => exact absurd rfl hd

theorem forall_part_list : (∀ k e, Part k e (.list xs) → P k e) ↔
    P 0 (.list xs) ∧ ∀ x ∈ xs, ∀ k e, Part k e x → P (k + 1) e := by
  refine ⟨fun H => ⟨H _ _ .self, fun x hx k e h => H _ _ (.item hx h)⟩, fun H k e h => ?_⟩
  cases h with
  | self => exact H.1
  | item hx h => exact H.2 _ hx _ _ h
  | head hx => cases hx
  | ending hd => exact absurd rfl hd

theorem forall_part_chain (hd : d.heads ≠ []) : (∀ k e, Part k e d → P k e) ↔
    P 0 d ∧ (∀ x ∈ d.heads, ∀ k e, Part k e x → P (k + 1) e) ∧
      ∀ k e, Part k e d.ending → P (k + 1) e := by
  refine ⟨fun H => ⟨H _ _ .self, fun x hx k e h => H _ _ (.head hx h), fun k e h =>
    H _ _ (.ending hd h)⟩, fun H k e h => ?_⟩
  cases h with
  | self => exact H.1
  | item => exact absurd rfl hd
  | head hx h => exact H.2.1 _ hx _ _ h
  | ending _ h => exact H.2.2 _ _ h

theorem forall_part_cons {a b : Datum} : (∀ k e, Part k e (.cons a b) → P k e) ↔
    P 0 (.cons a b) ∧ (∀ x ∈ a :: b.heads, ∀ k e, Part k e x → P (k + 1) e) ∧
      ∀ k e, Part k e b.ending → P (k + 1) e :=
  forall_part_chain nofun

end

/-- Induction that takes a chain as a whole. -/
theorem chainInduction {P : Datum → Prop} (atom : ∀ a, P (.atom a)) (nil : P .nil)
    (list : ∀ xs, (∀ x ∈ xs, P x) → P (.list xs))
    (chain : ∀ d, d.heads ≠ [] → (∀ x ∈ d.heads, P x) → P d.ending → P d) (d : Datum) : P d := by
  have H : P d ∧ (∀ x ∈ d.heads, P x) ∧ P d.ending := by
    refine @Datum.rec (fun d => P d ∧ (∀ x ∈ d.heads, P x) ∧ P d.ending) (fun xs => ∀ x ∈ xs, P x)
      ?_ ?_ ?_ ?_ ?_ ?_ d
    · exact fun a => ⟨atom a, nofun, atom a⟩
    · exact fun xs hxs => ⟨list xs hxs, nofun, list xs hxs⟩
    · intro a b ha hb
      have hheads := forall_mem_cons.2 ⟨ha.1, hb.2.1⟩
      exact ⟨chain (.cons a b) nofun hheads hb.2.2, hheads, hb.2.2⟩
    · exact ⟨nil, nofun, nil⟩
    · exact nofun
    · exact fun x xs hx hxs => forall_mem_cons.2 ⟨hx.1, hxs⟩
  exact H.1

theorem ChainsFit.heads_le (H : ChainsFit d) : d.heads.length ≤ maxChain := H 0 d .self

theorem ChainsFit.item (H : ChainsFit d) (hx : x ∈ d.items) : x.ChainsFit :=
  fun _ _ h => H _ _ (.of_item hx h)

theorem ChainsFit.dotted (H : ChainsFit d) (ht : t ∈ d.dotted?) : t.ChainsFit :=
  fun _ _ h => H _ _ (.of_dotted ht h)

end Datum

namespace Heap

/-! ## Unfolding -/

/-- The node holds the content `d`, cell for cell. -/
inductive Unfolds (h : Heap) : Node → Datum → Prop
  | atom : Unfolds h (.atom a) (.atom a)
  | nil : Unfolds h .nil .nil
  | list : Forall₂ (Unfolds h) nodes items → Unfolds h (.list nodes) (.list items)
  | cell {id : Nat} : Unfolds h (h.head id) a → Unfolds h (h.tail id) b →
    Unfolds h (.cell id) (.cons a b)

theorem Unfolds.walk_of_heads_nil {h : Heap} (H : h.Unfolds n d) (hd : d.heads = []) (limit : Nat)
    (seen : List Node) : h.walk limit n seen = ⟨seen.reverse, n⟩ := by
  cases H with
  | cell => cases hd
  | atom | list | nil => cases limit <;> rfl

/-- A walk over a finite chain passes over the first `limit` heads, and what is left over is a cell
exactly when there are more. -/
theorem Unfolds.walk_eq {h : Heap} (H : h.Unfolds n d) (limit : Nat) (seen : List Node) :
    ∃ nodes rest, h.walk limit n seen = ⟨seen.reverse ++ nodes, rest⟩ ∧
      Forall₂ h.Unfolds nodes (d.heads.take limit) ∧
      if d.heads.length ≤ limit then h.Unfolds rest d.ending else ∃ id, rest = .cell id := by
  induction limit generalizing n d seen with
  | zero =>
    refine ⟨[], n, by simp [walk], by simp, ?_⟩
    split
    · next hd =>
      have hd : d.heads = [] := length_eq_zero_iff.1 (Nat.le_zero.1 hd)
      simpa [hd, Datum.ending_of_heads_nil hd] using H
    · cases H with
      | cell => exact ⟨_, rfl⟩
      | atom | nil | list => exact absurd (Nat.le_refl 0) ‹_›
  | succ limit ih =>
    by_cases hd : d.heads = []
    · refine ⟨[], n, by rw [H.walk_of_heads_nil hd, append_nil], by simp [hd], ?_⟩
      simpa [hd, Datum.ending_of_heads_nil hd] using H
    · cases H with
      | @cell _ _ id ha hb =>
        obtain ⟨nodes, rest, hwalk, hnodes, hrest⟩ := ih hb (h.head id :: seen)
        refine ⟨h.head id :: nodes, rest, ?_, .cons ha hnodes, ?_⟩
        · rw [walk, hwalk, reverse_cons, append_assoc, singleton_append]
        · simpa [Datum.heads, Datum.ending] using hrest
      | atom | nil | list => exact absurd rfl hd

theorem Unfolds.chain_eq {h : Heap} (H : h.Unfolds n d) :
    ∃ nodes rest, h.chain n = ⟨nodes, rest⟩ ∧ Forall₂ h.Unfolds nodes (d.heads.take maxChain) ∧
      if d.heads.length ≤ maxChain then h.Unfolds rest d.ending else ∃ id, rest = .cell id := by
  simpa [chain] using H.walk_eq maxChain []

/-! ## Printing a chain

The printer has a loop of its own. It stops where a walk stops, having written the heads that the
walk has found. -/

/-- What is written behind the entries of a chain that is printed to its end. -/
def endingText (h : Heap) (levels : Nat) : Node → String
  | .nil => ""
  | ending => " . " ++ h.printAt levels ending

/-- What is written behind the entries of a chain when `rest` is left over from the walk. -/
def restText (h : Heap) (levels : Nat) : (rest : Node) → String
  | .cell _ => " ..."
  | rest => h.endingText levels rest

/-- The printer's loop after the entries of `seen`, which are given in reverse as to the walk. -/
theorem printTail_eq (h : Heap) (levels cells : Nat) (n : Node) {seen : List Node}
    (hseen : seen ≠ []) : h.printTail (h.printAt levels) cells n
      ("(" ++ " ".intercalate (seen.reverse.map (h.printAt levels))) =
    "(" ++ " ".intercalate ((h.walk cells n seen).heads.map (h.printAt levels)) ++
      h.restText levels (h.walk cells n seen).rest := by
  induction cells generalizing n seen with
  | zero => cases n <;> simp [printTail, walk, restText, endingText, String.append_assoc]
  | succ cells ih =>
    cases n with
    | cell id =>
      have hentry : "(" ++ " ".intercalate (seen.reverse.map (h.printAt levels)) ++ " " ++
          h.printAt levels (h.head id) =
          "(" ++ " ".intercalate ((h.head id :: seen).reverse.map (h.printAt levels)) := by
        rw [reverse_cons, map_append, String.intercalate_append_of_ne_nil (by simpa using hseen)
          (by simp), map_singleton, String.intercalate_singleton]
        simp only [String.append_assoc]
      rw [printTail, hentry, ih _ (cons_ne_nil _ _), walk]
    | atom | list | nil => simp [printTail, walk, restText, endingText, String.append_assoc]

theorem printAt_cell (h : Heap) (levels id : Nat) : h.printAt (levels + 1) (.cell id) =
    "(" ++ " ".intercalate ((h.chain (.cell id)).heads.map (h.printAt levels)) ++
      h.restText levels (h.chain (.cell id)).rest ++ ")" := by
  have htail := h.printTail_eq levels (maxChain - 1) (h.tail id) (cons_ne_nil (h.head id) [])
  rw [reverse_singleton, map_singleton, String.intercalate_singleton] at htail
  rw [printAt, htail]
  rfl

/-! ## What a list shows

The items of a list that can be walked, and what follows its dot, are all that the walkers see of
it. -/

/-- The node is a list of the items `nodes`, with `rest` after the dot if there is one. -/
inductive Shows (h : Heap) : Node → List Node → Option Node → Prop
  | array : Shows h (.list nodes) nodes none
  | nil : Shows h .nil [] none
  | chain {id : Nat} : h.chain (.cell id) = ⟨nodes, .nil⟩ → Shows h (.cell id) nodes none
  | dotted {id : Nat} : h.chain (.cell id) = ⟨nodes, rest⟩ → rest ≠ .nil →
    (∀ id, rest ≠ .cell id) → Shows h (.cell id) nodes (some rest)

theorem chain_heads_head? (h : Heap) (id : Nat) :
    (h.chain (.cell id)).heads.head? = some (h.head id) := by
  have hwalk : ∀ limit n (seen : List Node), seen ≠ [] →
      (h.walk limit n seen).heads.head? = seen.getLast? := by
    intro limit
    induction limit with
    | zero => intro n seen _; simp [walk]
    | succ limit ih =>
      intro n seen hseen
      cases n with
      | cell id => rw [walk, ih _ _ (by simp), getLast?_cons_of_ne_nil hseen]
      | atom | list | nil => simp [walk]
  exact hwalk _ _ [h.head id] (by simp)

namespace Shows
variable {h : Heap} {nodes : List Node} {rest : Option Node}

theorem isList (H : h.Shows n nodes rest) : n.isList := by cases H <;> rfl

theorem sequence_eq (H : h.Shows n nodes rest) : h.sequence n = .ok nodes := by
  cases H with
  | array | nil => rfl
  | chain hc => rw [sequence, hc]
  | dotted hc _ hcell =>
    rw [sequence, hc]
    split
    · next heq =>
      injection heq with _ heq
      exact absurd heq (hcell _)
    · next heq =>
      injection heq with heq
      rw [heq]

theorem headOf_eq (H : h.Shows n nodes rest) : h.headOf n = nodes.head? := by
  cases H with
  | array | nil => rfl
  | chain hc | dotted hc => rw [headOf, ← chain_heads_head?, hc]

theorem printAt_eq (H : h.Shows n nodes rest) (levels : Nat) :
    h.printAt (levels + 1) n = "(" ++ " ".intercalate (nodes.map (h.printAt levels)) ++
      (rest.map fun r => " . " ++ h.printAt levels r).getD "" ++ ")" := by
  cases H with
  | array | nil => simp [printAt]
  | chain hc =>
    rw [printAt_cell, hc]
    rfl
  | @dotted nodes rest _ hc hnil hcell =>
    rw [printAt_cell, hc]
    cases rest with
    | nil => exact absurd rfl hnil
    | cell id => exact absurd rfl (hcell id)
    | atom | list => rfl

end Shows

/-- A finite list with no more cells than can be walked shows the items of its datum. -/
theorem Unfolds.shows {h : Heap} (H : h.Unfolds n d) (hfit : d.heads.length ≤ maxChain)
    (hd : ∀ a, d ≠ .atom a) : ∃ nodes rest, h.Shows n nodes rest ∧
      Forall₂ h.Unfolds nodes d.items ∧ Option.Rel h.Unfolds rest d.dotted? := by
  cases H with
  | atom => exact absurd rfl (hd _)
  | nil => exact ⟨[], none, .nil, .nil, .none⟩
  | list hitems => exact ⟨_, none, .array, hitems, .none⟩
  | @cell a b id ha hb =>
    obtain ⟨nodes, rest, hchain, hnodes, hrest⟩ := (Unfolds.cell ha hb).chain_eq
    rw [if_pos hfit, Datum.ending] at hrest
    rw [take_of_length_le hfit] at hnodes
    generalize he : b.ending = e at hrest
    have hdot : e ≠ .nil → (Datum.cons a b).dotted? = some e := fun hne =>
      Datum.dotted?_mem_iff.2 ⟨by simp [Datum.heads], he, hne⟩
    cases hrest with
    | nil => exact ⟨nodes, none, .chain hchain, hnodes, by simp [Datum.dotted?, he]⟩
    | atom => exact ⟨nodes, _, .dotted hchain nofun nofun, hnodes, hdot nofun ▸ .some .atom⟩
    | list hl =>
      exact ⟨nodes, _, .dotted hchain nofun nofun, hnodes, hdot nofun ▸ .some (.list hl)⟩
    | cell => exact absurd he (Datum.ending_ne_cons b)

/-! ## Storing a datum -/

/-- The cells of `h` are unchanged in `h'`, which may have more. -/
def Extends (h h' : Heap) : Prop :=
  h.cells.size ≤ h'.cells.size ∧ ∀ id < h.cells.size, h'.cell id = h.cell id

theorem Extends.refl (h : Heap) : h.Extends h := ⟨Nat.le_refl _, fun _ _ => rfl⟩

theorem Extends.trans {h₁ h₂ h₃ : Heap} (H : h₁.Extends h₂) (H' : h₂.Extends h₃) :
    h₁.Extends h₃ :=
  ⟨Nat.le_trans H.1 H'.1, fun id hid => by
    rw [H'.2 id (Nat.lt_of_lt_of_le hid H.1), H.2 id hid]⟩

theorem extends_alloc (h : Heap) (head tail : Node) : h.Extends (h.alloc head tail).1 := by
  refine ⟨by simp [alloc], fun id hid => ?_⟩
  simp [alloc, cell, Array.getD, Array.getElem_push, hid, Nat.lt_succ_of_lt hid]

theorem alloc_cell (h : Heap) (head tail : Node) :
    (h.alloc head tail).1.cell h.cells.size = ⟨head, tail⟩ := by
  simp [alloc, cell, Array.getD]

/-- A new cell unfolds in every heap that keeps it. -/
theorem Unfolds.of_alloc {h h' : Heap} {head tail : Node}
    (H : (h.alloc head tail).1.Extends h') (ha : h'.Unfolds head a) (hb : h'.Unfolds tail b) :
    h'.Unfolds (h.alloc head tail).2 (.cons a b) := by
  have hcell : h'.cell h.cells.size = ⟨head, tail⟩ := by
    rw [H.2 _ (by simp [alloc]), alloc_cell]
  exact .cell (by rwa [Heap.head, hcell]) (by rwa [Heap.tail, hcell])

theorem extends_allocOnto (h : Heap) (heads : List Node) (tail : Node) :
    h.Extends (h.allocOnto heads tail).1 := by
  induction heads generalizing h tail with
  | nil => exact .refl h
  | cons head heads ih => exact (h.extends_alloc head tail).trans (ih ..)

theorem Unfolds.of_allocOnto {h h' : Heap} {tail : Node}
    (H : (h.allocOnto nodes tail).1.Extends h') (hnodes : Forall₂ h'.Unfolds nodes xs)
    (ht : h'.Unfolds tail t) : h'.Unfolds (h.allocOnto nodes tail).2 (.consReverse xs t) := by
  induction hnodes generalizing h tail t with
  | nil => exact ht
  | @cons node _ nodes _ hx _ ih =>
    exact ih H (.of_alloc ((extends_allocOnto _ nodes _).trans H) hx ht)

mutual
/-- Storing changes no cell that is there, and the node it returns holds the datum from then on. -/
theorem store_spec (h : Heap) : ∀ d : Datum, h.Extends (h.store d).1 ∧
    ∀ h', (h.store d).1.Extends h' → h'.Unfolds (h.store d).2 d
  | .atom _ => ⟨.refl h, fun _ _ => .atom⟩
  | .nil => ⟨.refl h, fun _ _ => .nil⟩
  | .list items => by
    obtain ⟨hext, nodes, hnode, hitems⟩ := storeItems_spec h items []
    refine ⟨hext, fun h' hh' => ?_⟩
    rw [store, hnode]
    exact .list (hitems h' hh')
  | .cons a b => by
    obtain ⟨hext, ha⟩ := store_spec h a
    obtain ⟨hext', hb⟩ := storeTail_spec (h.store a).1 b [(h.store a).2]
    refine ⟨hext.trans hext', fun h' hh' => ?_⟩
    exact hb h' hh' [a] (.cons (ha h' (hext'.trans hh')) .nil)

theorem storeItems_spec (h : Heap) : ∀ (items : List Datum) (seen : List Node),
    h.Extends (h.storeItems items seen).1 ∧
    ∃ nodes, (h.storeItems items seen).2 = .list (seen.reverse ++ nodes) ∧
      ∀ h', (h.storeItems items seen).1.Extends h' → Forall₂ h'.Unfolds nodes items
  | [], seen => ⟨.refl h, [], by simp [storeItems], fun _ _ => .nil⟩
  | item :: items, seen => by
    obtain ⟨hext, hitem⟩ := store_spec h item
    obtain ⟨hext', nodes, hnode, hitems⟩ :=
      storeItems_spec (h.store item).1 items ((h.store item).2 :: seen)
    refine ⟨hext.trans hext', (h.store item).2 :: nodes, ?_, fun h' hh' => ?_⟩
    · rw [storeItems, hnode, reverse_cons, append_assoc, singleton_append]
    · exact .cons (hitem h' (hext'.trans hh')) (hitems h' hh')

theorem storeTail_spec (h : Heap) : ∀ (d : Datum) (nodes : List Node),
    h.Extends (h.storeTail d nodes).1 ∧
    ∀ h', (h.storeTail d nodes).1.Extends h' → ∀ xs, Forall₂ h'.Unfolds nodes xs →
      h'.Unfolds (h.storeTail d nodes).2 (.consReverse xs d)
  | .atom a, nodes =>
    ⟨h.extends_allocOnto nodes (.atom a), fun _ hh' _ hnodes => .of_allocOnto hh' hnodes .atom⟩
  | .nil, nodes =>
    ⟨h.extends_allocOnto nodes .nil, fun _ hh' _ hnodes => .of_allocOnto hh' hnodes .nil⟩
  | .list items, nodes => by
    obtain ⟨hext, tail, htail, hitems⟩ := storeItems_spec h items []
    have hext' := extends_allocOnto (h.storeItems items []).1 nodes (h.storeItems items []).2
    refine ⟨hext.trans hext', fun h' hh' xs hnodes => .of_allocOnto hh' hnodes ?_⟩
    rw [htail]
    exact .list (hitems h' (hext'.trans hh'))
  | .cons a b, nodes => by
    obtain ⟨hext, ha⟩ := store_spec h a
    obtain ⟨hext', hb⟩ := storeTail_spec (h.store a).1 b ((h.store a).2 :: nodes)
    refine ⟨hext.trans hext', fun h' hh' xs hnodes => ?_⟩
    exact hb h' hh' (a :: xs) (.cons (ha h' (hext'.trans hh')) hnodes)
end

theorem store_unfolds (h : Heap) (d : Datum) : (h.store d).1.Unfolds (h.store d).2 d :=
  (h.store_spec d).2 _ (.refl _)

end Heap
end ListPress
