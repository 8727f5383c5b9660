import ListPress.Proofs.ReadData

/-! # Printing and reading again what was read

A datum that came out of the reader need not come back when it is printed and read again: infinity
reads as a symbol, and long chains are cut. For data without a lone dot as an item nothing else
stands in the way (`Datum.read_print_iff`):

* `Formed.straighten_eq`: of what was read, proper chains are all that is not flat;
* `Formed.rereadsAs_shown_iff`: what is shown of a datum reads as an equal one exactly if that is all
  of it and its atoms come back;
* `Readable.shown`: what is shown of a datum is read again. -/

namespace ListPress
open List Grammar

namespace Datum

mutual
/-- The datum with every proper chain turned into the array list of its heads. -/
def straighten : Datum → Datum
  | .atom a => .atom a
  | .nil => .nil
  | .list xs => .list (straightenItems xs)
  | .cons a (.list xs) => .cons a.straighten (.list (straightenItems xs))
  | .cons a b => push a.straighten b.straighten

def straightenItems : List Datum → List Datum
  | [] => []
  | x :: xs => x.straighten :: straightenItems xs
end

variable {depth : Nat} {d t u : Datum} {xs ys : List Datum}

theorem straightenItems_eq (xs : List Datum) : straightenItems xs = xs.map straighten := by
  induction xs with
  | nil => rfl
  | cons x xs ih => rw [straightenItems, ih, map_cons]

theorem flatItems_eq (xs : List Datum) : flatItems xs = xs.map flat := by
  induction xs with
  | nil => rfl
  | cons x xs ih => rw [flatItems, ih, map_cons]

theorem straighten_cons {a b : Datum} (hb : ∀ xs, b ≠ .list xs) :
    (cons a b).straighten = push a.straighten b.straighten := by
  cases b with
  | list xs => exact absurd rfl (hb xs)
  | atom | cons | nil => rfl

theorem IsEnd.chain_ne_list (H : t.IsEnd) (xs ys : List Datum) : chain xs t ≠ .list ys := by
  cases xs with
  | nil => obtain rfl | ⟨a, rfl⟩ := H <;> exact nofun
  | cons x xs => rw [chain_cons]; exact nofun

theorem IsEnd.straighten_chain (H : t.IsEnd) (xs : List Datum) :
    (chain xs t).straighten = (xs.map straighten).foldr push t.straighten := by
  induction xs with
  | nil => rfl
  | cons x xs ih =>
    rw [chain_cons, straighten_cons (H.chain_ne_list xs), ih, map_cons, foldr_cons]

theorem flat_chain (xs : List Datum) (t : Datum) :
    (chain xs t).flat = (xs.map flat).foldr push t.flat := by
  rw [chain, flat_consReverse, pushReverse, foldl_reverse, foldr_map]

/-- Of a datum that was read, proper chains are all that is not flat. -/
theorem Formed.straighten_eq (H : d.Formed depth) : d.straighten = d.flat := by
  induction d using chainInduction generalizing depth with
  | atom | nil => rfl
  | list xs ih =>
    have hxs : xs.map straighten = xs.map flat := map_congr_left fun x hx => ih x hx (H.item hx)
    have hne : xs ≠ [] := fun h => H.shape.ne_empty (h ▸ rfl)
    rw [straighten, flat, straightenItems_eq, flatItems_eq, hxs, ofItems]
    simpa using hne
  | chain d hd ih hending =>
    have hitems := items_of_heads_ne_nil hd
    have hxs : d.heads.map straighten = d.heads.map flat :=
      map_congr_left fun x hx => ih x hx (H.item (hitems ▸ hx))
    have ht := (H.isEnd hd).straighten_chain d.heads
    have hf := flat_chain d.heads d.ending
    rw [chain_heads_ending] at ht hf
    rw [ht, hf, hxs, hending (H.ending hd)]

/-! ## Equality with what is read again -/

theorem IsEnd.reread_flat (H : t.IsEnd) : t.reread.flat.IsEnd := by
  obtain rfl | ⟨a, rfl⟩ := H
  · exact .inl rfl
  · exact .inr ⟨a.reread, rfl⟩

theorem IsEnd.flat (H : t.IsEnd) : t.flat.IsEnd := by
  obtain rfl | ⟨a, rfl⟩ := H
  · exact .inl rfl
  · exact .inr ⟨a, rfl⟩

theorem IsEnd.not_equal_push (H : t.IsEnd) (y u : Datum) :
    ¬t.equal (push y u) ∧ ¬(push y u).equal t := by
  obtain rfl | ⟨a, rfl⟩ := H <;> cases u <;> simp [push, equal]

/-- What the text of `d` reads as is equal to `e`, up to the form of lists. -/
def RereadsAs (d e : Datum) : Prop := d.reread.flat.equal e.flat

theorem rereadsAs_list_iff :
    (list xs).RereadsAs (list ys) ↔ Forall₂ RereadsAs xs ys := by
  unfold RereadsAs
  induction xs generalizing ys with
  | nil =>
    cases ys with
    | nil => exact iff_of_true rfl .nil
    | cons y ys =>
      rw [flat_list_cons]
      exact iff_of_false (IsEnd.not_equal_push (.inl rfl) _ _).1 nofun
  | cons x xs ih =>
    cases ys with
    | nil =>
      rw [flat_reread_list_cons]
      exact iff_of_false (IsEnd.not_equal_push (.inl rfl) _ _).2 nofun
    | cons y ys =>
      rw [flat_reread_list_cons, flat_list_cons,
        equal_push_iff (flat_ne_list_nil _) (flat_ne_list_nil _), ih, forall₂_cons]

theorem rereadsAs_chain_iff (ht : t.IsEnd) (hd : d.ending.IsEnd) :
    (chain xs t).RereadsAs d ↔ Forall₂ RereadsAs xs d.heads ∧ t.RereadsAs d.ending := by
  unfold RereadsAs
  induction xs generalizing d with
  | nil =>
    cases d with
    | cons a b =>
      rw [flat]
      exact iff_of_false (ht.reread_flat.not_equal_push _ _).1 fun h => by cases h.1
    | atom | list | nil => simp [heads, ending]
  | cons x xs ih =>
    rw [chain_cons, flat_reread_cons]
    cases d with
    | cons a b =>
      rw [flat, equal_push_iff (flat_ne_list_nil _) (flat_ne_list_nil _), ih (d := b) hd, heads,
        ending, forall₂_cons, and_assoc]
    | atom | list | nil =>
      exact iff_of_false (hd.flat.not_equal_push _ _).2 fun h => by cases h.1

theorem reread_ellipsis : ellipsis.reread = ellipsis :=
  congrArg Datum.atom (Atom.reread_symbol (by decide) (by decide) (by simp; decide))

theorem eq_symbol_of_equal_flat {name : String} (H : (symbol name).equal d.flat) :
    d = symbol name := by
  cases d with
  | atom a =>
    cases a with
    | symbol =>
      simp only [symbol, flat, equal, Atom.equal, beq_iff_eq] at H
      exact congrArg Datum.atom H.symm
    | string | number | bool => cases H
  | nil => cases H
  | list xs =>
    rw [flat] at H
    cases h : flatItems xs <;> rw [h] at H <;> cases H
  | cons a b =>
    rw [flat] at H
    cases h : b.flat <;> rw [h] at H <;> cases H

theorem eq_nil_of_rereadsAs (H : Datum.nil.RereadsAs t) (ht : t.IsEnd) : t = .nil := by
  obtain rfl | ⟨a, rfl⟩ := ht
  · rfl
  · cases H

theorem ellipsis_rereadsAs_iff : ellipsis.RereadsAs d ↔ d = ellipsis := by
  rw [RereadsAs, reread_ellipsis]
  refine ⟨eq_symbol_of_equal_flat, ?_⟩
  rintro rfl
  exact beq_self_eq_true "..."

theorem IsEnd.shown (H : t.IsEnd) : t.shown = t := by
  obtain rfl | ⟨a, rfl⟩ := H <;> rfl

/-- If a chain comes back then it is shown whole, for a chain that is cut comes back only when the
mark of the cut was its last head. -/
theorem shownWhole_of_rereadsAs (hd : d.heads ≠ []) (hend : d.ending.IsEnd)
    (H : d.shown.RereadsAs d) : d.ShownWhole ∧ (∀ x ∈ d.heads, x.shown.RereadsAs x) ∧
      d.ending.shown.RereadsAs d.ending := by
  by_cases hle : d.heads.length ≤ maxChain
  · rw [shown_of_le hd hle, rereadsAs_chain_iff (by rwa [hend.shown]) hend,
      forall₂_map_left_iff, forall₂_same] at H
    exact ⟨.inl hle, H⟩
  · have hlt := Nat.not_le.1 hle
    have hlength : (d.heads.take maxChain).length = maxChain := length_take_of_le (Nat.le_of_lt hlt)
    have hcount : ((d.heads.take maxChain).map Datum.shown).length = maxChain := by
      rw [length_map, hlength]
    rw [shown_of_lt hlt, rereadsAs_chain_iff (.inl rfl) hend] at H
    have hinit := forall₂_take maxChain H.1
    rw [take_left' hcount, forall₂_map_left_iff, forall₂_same] at hinit
    -- after the heads that are shown the mark of the cut stands alone, so one head is left there
    have hdrop := forall₂_drop maxChain H.1
    rw [drop_left' hcount] at hdrop
    obtain ⟨y, ys, hy, hys, hdrop⟩ := forall₂_cons_left_iff.1 hdrop
    obtain rfl := forall₂_nil_left_iff.1 hys
    obtain rfl := ellipsis_rereadsAs_iff.1 hy
    have hheads : d.heads.take maxChain ++ [ellipsis] = d.heads := by
      rw [← hdrop, take_append_drop]
    have hnil := eq_nil_of_rereadsAs H.2 hend
    obtain ⟨hlong, hlast, -⟩ := (append_singleton_eq_iff hlength).1 hheads
    refine ⟨.inr ⟨hlong, hnil, hlast⟩, ?_, hnil ▸ H.2⟩
    rw [← hheads]
    exact forall_mem_append.2 ⟨hinit, forall_mem_singleton.2 hy⟩

/-- A datum that was read comes back up to the form of lists exactly when all of it is shown and its
atoms come back. -/
theorem Formed.rereadsAs_shown_iff (H : d.Formed depth) : d.shown.RereadsAs d ↔
    ∀ k e, Part k e d → e.ShownWhole ∧ ∀ a, e = .atom a → a.reread.equal a := by
  constructor
  · induction d using chainInduction generalizing depth with
    | atom a =>
      exact fun h => forall_part_atom.2 ⟨.inl (Nat.zero_le _), fun b hb => Datum.atom.inj hb ▸ h⟩
    | nil => exact fun _ => forall_part_nil.2 ⟨.inl (Nat.zero_le _), fun a h => by cases h⟩
    | list xs ih =>
      intro h
      rw [Datum.shown, shownItems_eq, rereadsAs_list_iff, forall₂_map_left_iff, forall₂_same] at h
      exact forall_part_list.2 ⟨⟨.inl (Nat.zero_le _), fun a h => by cases h⟩,
        fun x hx => ih x hx (H.item hx) (h x hx)⟩
    | chain d hd ih hending =>
      intro h
      have hitems := items_of_heads_ne_nil hd
      obtain ⟨hwhole, hheads, hlast⟩ := shownWhole_of_rereadsAs hd (H.isEnd hd) h
      refine (forall_part_chain hd).2
        ⟨⟨hwhole, fun a ha => absurd (ha ▸ rfl) hd⟩, fun x hx => ?_, ?_⟩
      · exact ih x hx (H.item (hitems ▸ hx)) (hheads x hx)
      · exact hending (H.ending hd) hlast
  · intro h
    rw [shown_eq_self_iff.2 fun k e he => (h k e he).1]
    exact equal_flat_reread d fun k a ha => (h k _ ha).2 a rfl

/-! ## What is shown can be read -/

theorem shown_eq_dot_iff : d.shown = dot ↔ d = dot := by
  cases d with
  | atom | nil => rfl
  | list | cons => exact iff_of_false nofun nofun

theorem dot_mem_map_shown_iff : dot ∈ xs.map Datum.shown ↔ dot ∈ xs := by
  simp [shown_eq_dot_iff]

theorem Readable.below (H : d.Readable (depth + 1)) (k : Nat) (e : Datum) (he : Part k e d) :
    depth + (k + 1) < maxReadDepth ∧ (∀ name, e = .symbol name → IsWord name.toList) ∧
      dot ∉ e.items := by
  rw [← Nat.add_assoc, Nat.add_right_comm]
  exact H k e he

theorem readable_chain (hne : xs ≠ []) (hdot : dot ∉ xs) (hend : t.heads = [])
    (hxs : ∀ x ∈ xs, x.Readable (depth + 1)) (ht : t.Readable (depth + 1)) :
    (chain xs t).Readable depth := by
  have hheads : (chain xs t).heads = xs := by rw [heads_chain, hend, append_nil]
  have hending : (chain xs t).ending = t := by rw [ending_chain, ending_of_heads_nil hend]
  have hd : (chain xs t).heads ≠ [] := by rwa [hheads]
  rw [Readable, forall_part_chain hd, hheads, hending]
  refine ⟨⟨Nat.lt_of_succ_lt ht.depth_lt, fun name h => absurd (h ▸ rfl) hd, ?_⟩,
    fun x hx => (hxs x hx).below, ht.below⟩
  rwa [items_of_heads_ne_nil hd, hheads]

/-- What is shown of a datum can be read if the datum can. -/
theorem Readable.shown (H : d.Readable depth) : d.shown.Readable depth := by
  induction d using chainInduction generalizing depth with
  | atom | nil => exact H
  | list xs ih =>
    rw [Datum.shown, shownItems_eq]
    refine forall_part_list.2 ⟨⟨H.depth_lt, fun name h => ?_, ?_⟩, forall_mem_map.2 fun x hx => ?_⟩
    · cases h
    · exact mt dot_mem_map_shown_iff.1 (H 0 _ .self).2.2
    · exact (ih x hx (H.item hx).2).below
  | chain d hd ih hending =>
    have hitems := items_of_heads_ne_nil hd
    have hdot : dot ∉ d.heads := hitems ▸ (H 0 d .self).2.2
    have hheads : ∀ x ∈ d.heads, x.shown.Readable (depth + 1) := fun x hx =>
      ih x hx (H.item (hitems ▸ hx)).2
    have hlast := hending (H.ending hd)
    by_cases hle : d.heads.length ≤ maxChain
    · rw [shown_of_le hd hle]
      exact readable_chain (mt map_eq_nil_iff.1 hd) (mt dot_mem_map_shown_iff.1 hdot)
        (heads_shown_eq_nil d.heads_ending_eq_nil) (forall_mem_map.2 hheads) hlast
    · -- the mark of the cut is a word, and no dot
      have hmark : ellipsis.Readable (depth + 1) := by
        refine forall_part_atom.2 ⟨hlast.depth_lt, fun name h => ?_, not_mem_nil⟩
        cases h
        exact ⟨by simp, by simp; decide⟩
      have hshown : dot ∉ (d.heads.take maxChain).map Datum.shown := fun h =>
        hdot (mem_of_mem_take (dot_mem_map_shown_iff.1 h))
      rw [shown_of_lt (Nat.not_le.1 hle)]
      refine readable_chain (append_ne_nil_of_right_ne_nil _ (cons_ne_nil _ _)) ?_ rfl
        (forall_mem_append.2 ⟨?_, forall_mem_singleton.2 hmark⟩)
        (forall_part_nil.2 ⟨hlast.depth_lt, fun name h => ?_, not_mem_nil⟩)
      · rw [mem_append, mem_singleton]
        exact not_or.2 ⟨hshown, by simp [dot, ellipsis, symbol]⟩
      · exact forall_mem_map.2 fun x hx => hheads x (mem_of_mem_take hx)
      · cases h

end Datum

/-! ## Reading again what was read -/

namespace Datum
variable {text : String} {d t : Datum}

/-- The atoms that are read come back, but for the infinite numbers. -/
theorem Shape.equal_reread_iff {a : Atom} (H : (Datum.atom a).Shape) :
    a.reread.equal a ↔ ∀ x, a = .number x → x.isFinite := by
  cases a with
  | string text => exact iff_of_true (beq_self_eq_true (Atom.string text)) nofun
  | symbol name =>
    have hname : (Atom.symbol name).reread = .symbol name := (H.symbol name rfl).2
    rw [hname]
    exact iff_of_true (beq_self_eq_true (Atom.symbol name)) nofun
  | number x => simp [Atom.equal_reread_number_iff]
  | bool b => cases b <;> exact iff_of_true rfl nofun

theorem Formed.toList_print (H : d.Formed 0) (h : Heap) :
    ((h.store d).1.print (h.store d).2).toList = d.shown.text := by
  refine (h.store_unfolds d).printAt_eq fun k e he => ?_
  have hdepth := (H k e he).1
  rw [Nat.zero_add] at hdepth
  exact Nat.lt_of_lt_of_le hdepth (by decide)

/-- A datum that was read, with no lone dot for an item, is printed as a text that is read again. An
equal datum comes back, up to proper chains being array lists, exactly if the numbers in it are finite
and its chains are not longer than what is printed of them. -/
theorem read_print_iff (H : Datum.read text = .ok d)
    (hdots : ∀ k e, Part k e d → .symbol "." ∉ e.items) (h : Heap) :
    ∃ d', Datum.read ((h.store d).1.print (h.store d).2) = .ok d' ∧
      (d'.straighten.equal d.straighten ↔
        (∀ k x, Part k (.atom (.number x)) d → x.isFinite) ∧
        ∀ k e, Part k e d → e.heads.length ≤ 65536 ∨
          e.heads.length = 65537 ∧ e.ending = .nil ∧
            e.heads.getLast? = some (.symbol "...")) := by
  have hd := formed_of_read H
  have hreadable : d.Readable 0 := fun k e he =>
    ⟨(hd k e he).1, fun name h => ((hd k e he).2.symbol name h).1, hdots k e he⟩
  have hread := read_text hreadable.shown (hd.toList_print h)
  refine ⟨d.shown.reread, hread, ?_⟩
  have hequal : (d.shown.reread.straighten.equal d.straighten : Prop) ↔ d.shown.RereadsAs d := by
    rw [(formed_of_read hread).straighten_eq, hd.straighten_eq]
    rfl
  rw [hequal, hd.rereadsAs_shown_iff]
  constructor
  · intro hparts
    refine ⟨fun k x hx => ?_, fun k e he => (hparts k e he).1⟩
    exact Atom.equal_reread_number_iff.1 ((hparts k _ hx).2 _ rfl)
  · rintro ⟨hnumbers, hchains⟩ k e he
    refine ⟨hchains k e he, ?_⟩
    rintro a rfl
    exact (hd k _ he).2.equal_reread_iff.2 fun x hx => hnumbers k x (hx ▸ he)

/-- The dot in front of an array list is not printed, and the chain comes back as an array list. -/
theorem read_print_iff_dotted :
    let d : Datum := .cons (.symbol "a")
      (.cons (.atom (.number ⟨0x3FF8000000000000⟩)) (.cons (.symbol "b") .nil))
    Datum.read "(a . (1.5 b))" = .ok d ∧ (∀ k e, Part k e d → .symbol "." ∉ e.items) ∧
      ∃ d', Datum.read ((Heap.empty.store d).1.print (Heap.empty.store d).2) = .ok d' ∧
        d'.straighten.equal d.straighten := by
  intro d
  let source : Datum := .cons (.symbol "a") (.list [.symbol "1.5", .symbol "b"])
  have hsource : source.Readable 0 := by
    simp [Readable, source, symbol, dot, forall_part_list, forall_part_cons, forall_part_atom,
      heads, ending, items, maxReadDepth, IsWord]
    decide
  have hreread : source.reread = d := by
    have ha : (Atom.symbol "a").reread = .symbol "a" := by decide +kernel
    have hb : (Atom.symbol "b").reread = .symbol "b" := by decide +kernel
    have hx : (Atom.symbol "1.5").reread = .number ⟨0x3FF8000000000000⟩ := by decide +kernel
    simp [source, d, symbol, reread, rereadItems, rereadTail, Reader.dotted, Reader.closed,
      consReverse, chain, ha, hb, hx]
  have hread : Datum.read "(a . (1.5 b))" = .ok d := by
    rw [read_text hsource, hreread]
    simp [source, symbol, Datum.text, textTail, textList, textItems, Atom.print]
  have hparts : ∀ k e, Part k e d → .symbol "." ∉ e.items ∧ e.heads.length ≤ 65536 ∧
      ∀ x, e = .atom (.number x) → x = ⟨0x3FF8000000000000⟩ := by
    simp [d, symbol, forall_part_cons, forall_part_atom, forall_part_nil, heads, ending, items]
  obtain ⟨d', hread', hequal⟩ := read_print_iff hread (fun k e he => (hparts k e he).1) Heap.empty
  refine ⟨hread, fun k e he => (hparts k e he).1, d', hread', hequal.2 ⟨fun k x hx => ?_,
    fun k e he => .inl (hparts k e he).2.1⟩⟩
  rw [(hparts k _ hx).2.2 x rfl]
  decide

theorem read_word {word : String} (H : IsWord word.toList) :
    Datum.read word = .ok (.atom (Reader.wordAtom word.toList)) := by
  refine read_text (d := .symbol word) (forall_part_atom.2 ⟨by decide, ?_, nofun⟩) rfl
  intro name h
  cases h
  exact H

/-- A numeral that is too large is read as infinity, and infinity is read again as a symbol. -/
theorem read_print_infinite : ∃ d, Datum.read "1e999" = .ok d ∧
    ¬∃ d', Datum.read ((Heap.empty.store d).1.print (Heap.empty.store d).2) = .ok d' ∧
      d'.straighten.equal d.straighten := by
  have hnumber : Reader.wordAtom "1e999".toList = .number ⟨0x7FF0000000000000⟩ := by decide +kernel
  have hread : Datum.read "1e999" = .ok (.atom (.number ⟨0x7FF0000000000000⟩)) := by
    rw [read_word ⟨by simp, by simp; decide⟩, hnumber]
  refine ⟨_, hread, ?_⟩
  rintro ⟨d', hread', heq⟩
  have hprint : (Heap.empty.store (.atom (.number ⟨0x7FF0000000000000⟩))).1.print
      (Heap.empty.store (.atom (.number ⟨0x7FF0000000000000⟩))).2 = "Infinity" := rfl
  rw [hprint, read_word ⟨by simp, by simp; decide⟩] at hread'
  cases hread'
  have hfinite := (Atom.equal_reread_number_iff (x := ⟨0x7FF0000000000000⟩)).1 heq
  exact absurd hfinite (by decide)

end Datum
end ListPress
