import ListPress.Proofs.ReadData
import ListPress.Proofs.StructureBounds

/-! # What reading can return

The parts of a datum that was read, as they can be told without the reader (`Datum.ReadPart`). The
reader does not go as deep as markup, style sheets and JSON do, so a walk over what was read never
fails for its depth (`Datum.Formed.eq_chainTooLong`). -/

namespace ListPress
open List

namespace Datum
variable {text : String} {d : Datum} {h : Heap} {n : Node}

/-- A part of a datum that was read, `k` levels below it. -/
structure ReadPart (k : Nat) (e : Datum) : Prop where
  level : k ≤ 255
  ne_empty : e ≠ .list []
  ending : e.heads ≠ [] → ∀ xs, e.ending ≠ .list xs
  symbol : ∀ name, e = .symbol name →
    name ≠ "" ∧ (∀ c ∈ name.toList, isDelimiter c = false) ∧ name ∉ ["#t", "#f"] ∧
      Literal.number? name.toList = none
  number : ∀ x, e = .atom (.number x) → x.isNaN = false

/-- A word is a symbol only if it is nothing else. -/
theorem wordAtom_eq_symbol {w : List Char} {name : String}
    (H : Reader.wordAtom w = .symbol name) :
    w ≠ ['#', 't'] ∧ w ≠ ['#', 'f'] ∧ Literal.number? w = none := by
  cases Grammar.word_iff.2 H with
  | symbol ht hf hnone => exact ⟨ht, hf, Grammar.number?_eq_none_iff.2 hnone⟩

theorem Formed.readPart (H : d.Formed 0) {k : Nat} {e : Datum} (he : Part k e d) :
    ReadPart k e := by
  obtain ⟨hdepth, hshape⟩ := H k e he
  refine ⟨?_, hshape.ne_empty, fun hheads xs hxs => ?_, fun name hname => ?_, hshape.number⟩
  · rw [Nat.zero_add] at hdepth
    exact Nat.le_of_lt_succ hdepth
  · have hend := hshape.finish
    rw [finish_of_heads_ne_nil hheads, hxs] at hend
    rcases hend with h | ⟨a, h⟩ <;> cases h
  · obtain ⟨⟨hne, hword⟩, hatom⟩ := hshape.symbol name hname
    obtain ⟨ht, hf, hnumber⟩ := wordAtom_eq_symbol hatom
    refine ⟨?_, hword, ?_, hnumber⟩
    · rintro rfl
      exact hne rfl
    · simp only [mem_cons, not_mem_nil, or_false, not_or]
      refine ⟨?_, ?_⟩
      · rintro rfl
        simp at ht
      · rintro rfl
        simp at hf

/-- What is read lies within the levels of a walk, so a walk over it fails only at a chain. -/
theorem Formed.eq_chainTooLong {e : StructureError} (H : d.Formed 0) (hn : h.Unfolds n d)
    (hcause : h.Cause (maxNesting + 1) n e) : e = .chainTooLong := by
  cases e with
  | chainTooLong => rfl
  | nestingTooDeep =>
    obtain ⟨k, x, hbelow, hk⟩ := (hcause.below hn).1 rfl
    have hdepth := (H k x hbelow.part).1
    rw [maxReadDepth] at hdepth
    rw [maxNesting] at hk
    omega

/-- No part of what was read is too deep, an empty array list, a chain that ends in an array list, a
symbol that would be read as something else, or not a number. So a node that holds it is never
nested too deep for markup, style sheets and JSON. -/
theorem read_parts (H : read text = .ok d) :
    (∀ k e, Part k e d → ReadPart k e) ∧
    ∀ (h : Heap) (n : Node), h.Unfolds n d →
      h.markup n ≠ .error .nestingTooDeep ∧
      (∀ vars, h.style vars n ≠ .error .nestingTooDeep) ∧
      h.toJson n ≠ .error .nestingTooDeep := by
  have hd := formed_of_read H
  refine ⟨fun k e he => hd.readPart he, fun h n hn => ⟨fun hfail => ?_, fun vars hfail => ?_,
    fun hfail => ?_⟩⟩
  · cases hd.eq_chainTooLong hn (Heap.cause_of_markupAt hfail)
  · cases hd.eq_chainTooLong hn (Heap.cause_of_style hfail)
  · cases hd.eq_chainTooLong hn (Heap.cause_of_toJsonAt hfail)

/-- The datum after the dot is the end of the chain, one level down like the quoted head. -/
theorem read_parts_dotted :
    let d : Datum :=
      .cons (.list [.symbol "quote", .symbol "a"]) (.atom (.number ⟨0x3FF8000000000000⟩))
    let stored := Heap.empty.store d
    read "('a . 1.5)" = .ok d ∧ ReadPart 2 (.symbol "a") ∧
      ReadPart 1 (.atom (.number ⟨0x3FF8000000000000⟩)) ∧
      stored.1.markup stored.2 ≠ .error .nestingTooDeep := by
  intro d stored
  have hread : read "('a . 1.5)" = .ok d := by
    have hnumber : Reader.wordAtom ['1', '.', '5'] = .number ⟨0x3FF8000000000000⟩ := by
      decide +kernel
    simp only [d, ← hnumber]
    with_unfolding_all rfl
  obtain ⟨hparts, hwalks⟩ := read_parts hread
  refine ⟨hread, hparts 2 _ ?_, hparts 1 _ ?_, (hwalks _ _ (Heap.empty.store_unfolds d)).1⟩
  · exact .head mem_cons_self (.item (mem_cons_of_mem _ mem_cons_self) .self)
  · exact .ending (cons_ne_nil _ _) .self

end Datum
end ListPress
