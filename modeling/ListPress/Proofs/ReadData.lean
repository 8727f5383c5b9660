import ListPress.Proofs.RoundTrip

/-! # The data that can be read

Not every datum can come out of the reader. Every datum that does is `Formed` (`formed_of_read`). -/

namespace ListPress
open List Grammar

namespace Datum

/-- What comes after the last item of a list, of either form. -/
def finish : Datum → Datum
  | .list _ => .nil
  | d => d.ending

/-- An atom or the empty node. -/
def IsEnd (t : Datum) : Prop := t = .nil ∨ ∃ a, t = .atom a

/-- What the reader makes sure of in every part of a datum. -/
structure Shape (e : Datum) : Prop where
  symbol : ∀ name, e = .symbol name →
    IsWord name.toList ∧ Reader.wordAtom name.toList = .symbol name
  number : ∀ x, e = .atom (.number x) → x.isNaN = false
  ne_empty : e ≠ .list []
  finish : e.finish.IsEnd

/-- A datum as it is read inside `depth` forms. -/
def Formed (depth : Nat) (d : Datum) : Prop :=
  ∀ k e, Part k e d → depth + k < maxReadDepth ∧ e.Shape

variable {depth : Nat} {d : Datum} {xs : List Datum}

theorem Formed.depth_lt (H : d.Formed depth) : depth < maxReadDepth := (H 0 d .self).1

theorem Formed.shape (H : d.Formed depth) : d.Shape := (H 0 d .self).2

theorem Formed.mono {depth' : Nat} (H : d.Formed depth) (h : depth' ≤ depth) : d.Formed depth' :=
  fun k e he => ⟨by have := (H k e he).1; omega, (H k e he).2⟩

theorem Formed.below (H : d.Formed (depth + 1)) (k : Nat) (e : Datum) (he : Part k e d) :
    depth + (k + 1) < maxReadDepth ∧ e.Shape := by
  rw [← Nat.add_assoc, Nat.add_right_comm]
  exact H k e he

theorem Formed.item {x : Datum} (H : d.Formed depth) (hx : x ∈ d.items) : x.Formed (depth + 1) := by
  intro k e he
  rw [Nat.add_right_comm]
  exact H (k + 1) e (.of_item hx he)

theorem Formed.ending (H : d.Formed depth) (hd : d.heads ≠ []) : d.ending.Formed (depth + 1) := by
  intro k e he
  rw [Nat.add_right_comm]
  exact H (k + 1) e (.ending hd he)

theorem finish_of_heads_ne_nil (hd : d.heads ≠ []) : d.finish = d.ending := by
  cases d with
  | cons => rfl
  | atom | list | nil => exact absurd rfl hd

theorem IsEnd.heads_eq {t : Datum} (H : t.IsEnd) : t.heads = [] := by
  obtain rfl | ⟨a, rfl⟩ := H <;> rfl

theorem Formed.isEnd (H : d.Formed depth) (hd : d.heads ≠ []) : d.ending.IsEnd :=
  finish_of_heads_ne_nil hd ▸ H.shape.finish

theorem formed_nil (H : depth < maxReadDepth) : Datum.nil.Formed depth :=
  forall_part_nil.2 ⟨H, nofun, nofun, nofun, .inl rfl⟩

theorem formed_atom {a : Atom} (H : depth < maxReadDepth)
    (hsymbol : ∀ name, a = .symbol name →
      IsWord name.toList ∧ Reader.wordAtom name.toList = .symbol name)
    (hnumber : ∀ x, a = .number x → x.isNaN = false) : (Datum.atom a).Formed depth :=
  forall_part_atom.2 ⟨H, fun name h => hsymbol name (Datum.atom.inj h),
    fun x h => hnumber x (Datum.atom.inj h), nofun, .inr ⟨a, rfl⟩⟩

theorem formed_symbol {name : String} (H : depth < maxReadDepth) (hword : IsWord name.toList)
    (hatom : Reader.wordAtom name.toList = .symbol name) : (Datum.symbol name).Formed depth := by
  refine formed_atom H (fun name h => ?_) nofun
  cases h
  exact ⟨hword, hatom⟩

theorem formed_list (H : depth < maxReadDepth) (hne : xs ≠ [])
    (hxs : ∀ x ∈ xs, x.Formed (depth + 1)) : (list xs).Formed depth :=
  forall_part_list.2 ⟨⟨H, nofun, nofun, fun h => hne (list.inj h), .inl rfl⟩,
    fun x hx => (hxs x hx).below⟩

theorem formed_chain {t : Datum} (hne : xs ≠ []) (hend : t.IsEnd)
    (hxs : ∀ x ∈ xs, x.Formed (depth + 1)) (ht : t.Formed (depth + 1)) :
    (chain xs t).Formed depth := by
  have hheads : (chain xs t).heads = xs := by rw [heads_chain, hend.heads_eq, append_nil]
  have hending : (chain xs t).ending = t := by rw [ending_chain, ending_of_heads_nil hend.heads_eq]
  have hd : (chain xs t).heads ≠ [] := by rwa [hheads]
  have hdepth : depth < maxReadDepth := Nat.lt_of_succ_lt ht.depth_lt
  rw [Formed, forall_part_chain hd, hheads, hending]
  refine ⟨⟨hdepth, fun name h => absurd (h ▸ rfl) hd, fun x h => absurd (h ▸ rfl) hd,
    fun h => absurd (h ▸ rfl) hd, ?_⟩, fun x hx => (hxs x hx).below, ht.below⟩
  rwa [finish_of_heads_ne_nil hd, hending]

theorem continued_eq (items : List Datum) (t : Datum) :
    continued items t = chain (items ++ t.items) t.finish := by
  cases t with
  | list more => rfl
  | atom | cons | nil =>
    rw [chain_append]
    exact congrArg (chain items) (chain_heads_ending _).symm

theorem Formed.finish (H : d.Formed depth) : d.finish.Formed depth := by
  cases d with
  | list => exact formed_nil H.depth_lt
  | atom | nil => exact H
  | cons => exact (H.ending (cons_ne_nil _ _)).mono (Nat.le_succ depth)

/-- A dotted list. -/
theorem formed_continued {t : Datum} (hne : xs ≠ []) (hxs : ∀ x ∈ xs, x.Formed (depth + 1))
    (ht : t.Formed (depth + 1)) : (continued xs t).Formed depth := by
  rw [continued_eq]
  refine formed_chain (append_ne_nil_of_left_ne_nil hne _) ht.shape.finish ?_ ht.finish
  exact forall_mem_append.2 ⟨hxs, fun x hx => (ht.item hx).mono (Nat.le_succ _)⟩

end Datum

/-! ## Derivations -/

namespace Grammar

theorem Numeral.isNaN_eq_false {w : List Char} {x : Binary64} (H : Numeral w x) :
    x.isNaN = false := by
  cases H with
  | intro =>
    unfold Literal.rounded
    split <;> exact Binary64.isNaN_ofRatio ..

mutual
theorem Data.formed {depth : Nat} {cs rest : List Char} {d : Datum} :
    Data depth cs d rest → d.Formed depth
  | .intro hdepth _ h => Form.formed hdepth h

theorem Form.formed {depth : Nat} {cs rest : List Char} {d : Datum}
    (hdepth : depth < maxReadDepth) : Form depth cs d rest → d.Formed depth
  | .quote hd => by
    have hquote : (Datum.symbol "quote").Formed (depth + 1) :=
      Datum.formed_symbol hd.formed.depth_lt ⟨by simp, by simp; decide⟩ (by simp; decide)
    exact Datum.formed_list hdepth nofun
      (forall_mem_cons.2 ⟨hquote, forall_mem_singleton.2 hd.formed⟩)
  | .empty _ => Datum.formed_nil hdepth
  | .list hitems _ => Datum.formed_list hdepth hitems.ne_nil (Run.formed hitems)
  | .dotted hitems _ _ ht _ => Datum.formed_continued hitems.ne_nil (Run.formed hitems) ht.formed
  | .string _ => Datum.formed_atom hdepth nofun nofun
  | .word hw _ ha => by
    refine Datum.formed_atom hdepth (fun name h => ?_) fun x h => ?_
    · subst h
      have hatom := word_iff.1 ha
      cases ha
      rw [String.toList_ofList]
      exact ⟨hw, hatom⟩
    · subst h
      cases ha with
      | number hx => exact hx.isNaN_eq_false

theorem Run.formed {depth : Nat} {cs rest : List Char} {items : List Datum} :
    Run depth cs items rest → ∀ x ∈ items, x.Formed depth
  | .last _ hd => forall_mem_singleton.2 hd.formed
  | .cons _ hd hitems => forall_mem_cons.2 ⟨hd.formed, Run.formed hitems⟩
end

end Grammar

theorem Datum.formed_of_read {text : String} {d : Datum} (H : Datum.read text = .ok d) :
    d.Formed 0 := by
  obtain ⟨rest, hd, -⟩ := denotes_of_read H
  exact hd.formed

end ListPress
