import ListPress.Proofs.NumberText
import ListPress.Proofs.Printing
import ListPress.Proofs.Reading

/-! # Reading what was printed

The reader reads the text of a datum as the datum `reread`, whatever follows (`Reader.run_text`). Up to
the form of lists this is the datum itself if it is so for its atoms (`Datum.equal_flat_reread`), and an
atom fails to come back only if a name looks like another atom or a number is infinite. -/

namespace ListPress
open List Grammar

/-- What the printed form of an atom reads as. -/
def Atom.reread : Atom → Atom
  | .string text => .string text
  | a => Reader.wordAtom a.print.toList

namespace Datum

mutual
/-- What the text of a datum reads as. -/
def reread : Datum → Datum
  | .atom a => .atom a.reread
  | .nil => .nil
  | .list xs => rereadItems xs []
  | .cons a b => b.rereadTail [a.reread]

/-- The items of a list, after `seen`, the last one first. -/
def rereadItems : List Datum → (seen : List Datum) → Datum
  | [], seen => Reader.closed seen
  | x :: xs, seen => rereadItems xs (x.reread :: seen)

/-- The rest of a chain, after `seen`, the last one first. -/
def rereadTail : Datum → (seen : List Datum) → Datum
  | .cons a b, seen => b.rereadTail (a.reread :: seen)
  | .nil, seen => Reader.closed seen
  | .atom a, seen => Reader.dotted seen (.atom a.reread)
  | .list xs, seen => Reader.dotted seen (rereadItems xs [])
end

/-- The symbol that would be taken for the dot of a list. -/
def dot : Datum := .symbol "."

/-- Inside `depth` forms the reader takes every part of the datum for what it is: no part is too
deep, the names of symbols are words, and no item is a lone dot. -/
def Readable (depth : Nat) (d : Datum) : Prop :=
  ∀ k e, Part k e d → depth + k < maxReadDepth ∧
    (∀ name, e = .symbol name → IsWord name.toList) ∧ dot ∉ e.items

variable {depth : Nat}

theorem Readable.depth_lt (H : Readable depth d) : depth < maxReadDepth := (H 0 d .self).1

theorem Readable.isWord {a : Atom} (H : Readable depth (.atom a)) :
    ∀ name, a = .symbol name → IsWord name.toList :=
  fun name h => (H 0 _ .self).2.1 name (h ▸ rfl)

theorem Readable.item (H : Readable depth d) (hx : x ∈ d.items) :
    x ≠ dot ∧ Readable (depth + 1) x := by
  refine ⟨fun h => (H 0 d .self).2.2 (h ▸ hx), fun k e he => ?_⟩
  rw [Nat.add_right_comm]
  exact H (k + 1) e (.of_item hx he)

theorem Readable.ending (H : Readable depth d) (hd : d.heads ≠ []) :
    Readable (depth + 1) d.ending := by
  intro k e he
  rw [Nat.add_right_comm]
  exact H (k + 1) e (.ending hd he)

end Datum

/-! ## Atoms -/

theorem Grammar.stringBody_escaped (text rest : List Char) :
    StringBody (text.flatMap Atom.escapeChar ++ '"' :: rest) text rest := by
  induction text with
  | nil => exact .close
  | cons c text ih =>
    rw [flatMap_cons, append_assoc]
    unfold Atom.escapeChar
    split
    · exact .escape .mark ih
    · exact .escape .backslash ih
    · exact .escape .newline ih
    · exact .escape .tab ih
    · exact .escape .carriageReturn ih
    · next hquote hback _ _ _ => exact .plain hquote hback ih

theorem printedNumber_narrow : printedNumber.Narrow := ⟨by decide, by decide⟩

/-- The text of a finite number reads as an equal number. -/
theorem Binary64.print_numeral {x : Binary64} (H : x.isFinite) :
    ∃ y, Numeral x.print.toList y ∧ y.equal x := by
  rw [Binary64.print, isNaN_of_isFinite H, if_neg nofun, if_pos H, String.toList_ofList]
  exact NumberLayout.finite_numeral printedNumber_narrow H

theorem Binary64.print_of_not_isFinite {x : Binary64} (H : ¬x.isFinite) :
    x.print = "NaN" ∨ x.print = "Infinity" ∨ x.print = "-Infinity" := by
  rw [Binary64.print, if_neg H]
  split
  · exact .inl rfl
  · split
    · exact .inr (.inr rfl)
    · exact .inr (.inl rfl)

theorem Binary64.isWord_print (x : Binary64) : IsWord x.print.toList := by
  by_cases hx : x.isFinite
  · obtain ⟨y, hy, -⟩ := print_numeral hx
    exact hy.isWord
  · rcases print_of_not_isFinite hx with h | h | h <;> rw [h] <;> exact ⟨by simp, by simp; decide⟩

theorem Atom.isWord_print {a : Atom} (hstring : ∀ text, a ≠ .string text)
    (hsymbol : ∀ name, a = .symbol name → IsWord name.toList) : IsWord a.print.toList := by
  cases a with
  | string text => exact absurd rfl (hstring text)
  | symbol name => exact hsymbol name rfl
  | number x => exact x.isWord_print
  | bool b => cases b <;> exact ⟨by simp [Atom.print], by simp [Atom.print]; decide⟩

/-- No other atom looks like a lone dot. -/
theorem Atom.eq_of_print_eq_dot {a : Atom} (H : a.print.toList = ['.']) : a = .symbol "." := by
  cases a with
  | string text => simp [Atom.print, Atom.quoted] at H
  | symbol name => exact congrArg Atom.symbol (String.toList_inj.1 (H.trans (by simp)))
  | number x =>
    by_cases hx : x.isFinite
    · obtain ⟨y, hy, -⟩ := Binary64.print_numeral hx
      exact absurd H (hy.ne_of_number?_eq_none rfl)
    · rw [Atom.print] at H
      rcases Binary64.print_of_not_isFinite hx with h | h | h <;> simp [h] at H
  | bool b => cases b <;> simp [Atom.print] at H

namespace Reader
variable {rest : List Char} {stack : List Frame}

theorem run_space (mode : Mode) (stack : List Frame) (cs : List Char) :
    run mode stack (' ' :: cs) = run mode stack cs := by
  have hskip : Lexeme.skip (' ' :: cs) = Lexeme.skip cs :=
    (Separators.space (by simp) .none).skip_eq
  rw [run_eq, run_eq mode stack cs, Lexeme.scan, hskip, ← Lexeme.scan]

/-- A list does not take the symbol of a lone dot for an item. -/
def Takes : List Frame → Datum → Prop
  | .items _ :: _, d => d ≠ .dot
  | _, _ => True

theorem run_word {w : List Char} (hw : IsWord w) (hb : Boundary rest)
    (hdepth : stack.length < maxReadDepth) (hdot : NoDot stack (w ++ rest)) :
    run .datum stack (w ++ rest) = resume rest (deliver (.atom (wordAtom w)) stack) := by
  rw [run_begin (.word .none hw hb) (by simp) hdot, begin, if_neg (Nat.not_le.2 hdepth)]

theorem run_string (text : String) (hdepth : stack.length < maxReadDepth) :
    run .datum stack ((Atom.quoted text).toList ++ rest) =
      resume rest (deliver (.atom (.string text)) stack) := by
  have htext : (Atom.quoted text).toList ++ rest =
      '"' :: (text.toList.flatMap Atom.escapeChar ++ '"' :: rest) := by simp [Atom.quoted]
  have hscan := Scans.string .none (stringBody_escaped text.toList rest)
  rw [htext, run_begin hscan nofun (noDot_of_scans hscan nofun), begin,
    if_neg (Nat.not_le.2 hdepth), String.ofList_toList]

theorem run_atom (stack : List Frame) {a : Atom}
    (ha : ∀ name, a = .symbol name → IsWord name.toList) (hdepth : stack.length < maxReadDepth)
    (htakes : Takes stack (.atom a)) (hb : Boundary rest) :
    run .datum stack (a.print.toList ++ rest) = resume rest (deliver (.atom a.reread) stack) := by
  by_cases hstring : ∃ text, a = .string text
  · obtain ⟨text, rfl⟩ := hstring
    exact run_string text hdepth
  · have hw := Atom.isWord_print (fun text h => hstring ⟨text, h⟩) ha
    have hreread : a.reread = wordAtom a.print.toList := by
      cases a with
      | string text => exact absurd ⟨text, rfl⟩ hstring
      | symbol | number | bool => rfl
    rw [hreread]
    refine run_word hw hb hdepth ?_
    unfold NoDot
    split
    · rw [dot_iff, (Scans.word .none hw hb).scan_eq, Token.word.injEq]
      exact fun h => htakes (congrArg Datum.atom (Atom.eq_of_print_eq_dot h))
    · trivial

/-! ## Lists -/

theorem run_opened (cs : List Char) (hdepth : stack.length < maxReadDepth) :
    run .datum stack ('(' :: cs) = run .datum (.items [] :: stack) cs :=
  run_opening .none hdepth (noDot_of_scans (.opening .none) nofun)

theorem run_dotted {seen : List Datum} (hseen : seen ≠ []) (cs : List Char) :
    run .datum (.items seen :: stack) (' ' :: '.' :: ' ' :: cs) =
      run .datum (.tail seen :: stack) cs := by
  rw [run_dot (.space (by simp) .none) (boundary_cons (by decide) cs) hseen, run_space]

theorem boundary_textItems (xs : List Datum) (rest : List Char) :
    Boundary (Datum.textItems xs ++ rest) := by
  cases xs <;> exact boundary_cons (by decide) _

theorem boundary_textTail (d : Datum) (rest : List Char) : Boundary (d.textTail ++ rest) := by
  cases d <;> exact boundary_cons (by decide) _

mutual
/-- The reader reads the text of a datum, and hands what it reads to the stack. -/
theorem run_text {rest : List Char} : ∀ (d : Datum) (stack : List Frame),
    d.Readable stack.length → Takes stack d → Boundary rest →
    run .datum stack (d.text ++ rest) = resume rest (deliver d.reread stack)
  | .atom a, stack, hd, htakes, hb => by
    rw [Datum.text, Datum.reread]
    exact run_atom stack hd.isWord hd.depth_lt htakes hb
  | .nil, stack, hd, _, _ => by
    rw [Datum.text, cons_append, run_opened _ hd.depth_lt]
    exact run_closing .none
  | .list xs, stack, hd, _, _ => by
    rw [Datum.text, Datum.reread]
    exact run_textList xs stack hd.depth_lt fun x hx => hd.item hx
  | .cons a b, stack, hd, _, _ => by
    have hhead := hd.item (x := a) mem_cons_self
    rw [Datum.text, cons_append, run_opened _ hd.depth_lt, append_assoc,
      run_text a (.items [] :: stack) hhead.2 hhead.1 (boundary_textTail b rest), deliver, resume,
      run_textTail b stack (cons_ne_nil _ _) (fun x hx => hd.item (mem_cons_of_mem a hx))
        (hd.ending (cons_ne_nil _ _)), Datum.reread]

theorem run_textList {rest : List Char} : ∀ (xs : List Datum) (stack : List Frame),
    stack.length < maxReadDepth → (∀ x ∈ xs, x ≠ .dot ∧ x.Readable (stack.length + 1)) →
    run .datum stack (Datum.textList xs ++ rest) =
      resume rest (deliver (Datum.rereadItems xs []) stack)
  | [], stack, hdepth, _ => by
    rw [Datum.textList, cons_append, run_opened _ hdepth]
    exact run_closing .none
  | x :: xs, stack, hdepth, hxs => by
    obtain ⟨hx, hxs⟩ := forall_mem_cons.1 hxs
    rw [Datum.textList, cons_append, run_opened _ hdepth, append_assoc,
      run_text x (.items [] :: stack) hx.2 hx.1 (boundary_textItems xs rest), deliver, resume,
      run_textItems xs stack hxs, Datum.rereadItems]

theorem run_textItems {seen : List Datum} {rest : List Char} :
    ∀ (xs : List Datum) (stack : List Frame),
    (∀ x ∈ xs, x ≠ .dot ∧ x.Readable (stack.length + 1)) →
    run .datum (.items seen :: stack) (Datum.textItems xs ++ rest) =
      resume rest (deliver (Datum.rereadItems xs seen) stack)
  | [], _, _ => run_closing .none
  | x :: xs, stack, hxs => by
    obtain ⟨hx, hxs⟩ := forall_mem_cons.1 hxs
    rw [Datum.textItems, cons_append, run_space, append_assoc,
      run_text x (.items seen :: stack) hx.2 hx.1 (boundary_textItems xs rest), deliver, resume,
      run_textItems xs stack hxs, Datum.rereadItems]

theorem run_textTail {seen : List Datum} {rest : List Char} :
    ∀ (d : Datum) (stack : List Frame), seen ≠ [] →
    (∀ x ∈ d.heads, x ≠ .dot ∧ x.Readable (stack.length + 1)) →
    d.ending.Readable (stack.length + 1) →
    run .datum (.items seen :: stack) (d.textTail ++ rest) =
      resume rest (deliver (d.rereadTail seen) stack)
  | .cons a b, stack, hseen, hheads, hending => by
    obtain ⟨ha, hheads⟩ := forall_mem_cons.1 hheads
    rw [Datum.textTail, cons_append, run_space, append_assoc,
      run_text a (.items seen :: stack) ha.2 ha.1 (boundary_textTail b rest), deliver, resume,
      run_textTail b stack (cons_ne_nil _ _) hheads hending, Datum.rereadTail]
  | .nil, _, _, _, _ => run_closing .none
  | .atom a, stack, hseen, _, hending => by
    have hending : (Datum.atom a).Readable (stack.length + 1) := hending
    have hclose : Boundary ([')'] ++ rest) := boundary_cons (by decide) rest
    rw [Datum.textTail, cons_append, cons_append, cons_append, run_dotted hseen, append_assoc,
      run_atom (.tail seen :: stack) hending.isWord hending.depth_lt trivial hclose]
    exact run_close .none _
  | .list xs, stack, hseen, _, hending => by
    rw [Datum.textTail, cons_append, cons_append, cons_append, run_dotted hseen, append_assoc,
      run_textList xs (.tail seen :: stack) hending.depth_lt fun x hx => hending.item hx]
    exact run_close .none _
end

end Reader

/-! ## Equality up to the form of lists -/

namespace Datum

/-- The list of some items, empty ones being the empty node. -/
def ofItems : List Datum → Datum
  | [] => .nil
  | xs => .list xs

/-- An item in front of a list, or a cell in front of anything else. -/
def push (x : Datum) : Datum → Datum
  | .nil => .list [x]
  | .list xs => .list (x :: xs)
  | t => .cons x t

mutual
/-- The datum with one form for every list: proper chains are array lists of their heads, an array
list at the end of a chain is spliced into it, and the empty array list is the empty node. -/
def flat : Datum → Datum
  | .atom a => .atom a
  | .nil => .nil
  | .list xs => ofItems (flatItems xs)
  | .cons a b => push a.flat b.flat

def flatItems : List Datum → List Datum
  | [] => []
  | x :: xs => x.flat :: flatItems xs
end

mutual
/-- Structural equality, of atoms by value. -/
def equal : Datum → Datum → Bool
  | .atom a, .atom b => a.equal b
  | .list xs, .list ys => equalItems xs ys
  | .cons a b, .cons c d => a.equal c && b.equal d
  | .nil, .nil => true
  | _, _ => false

def equalItems : List Datum → List Datum → Bool
  | [], [] => true
  | x :: xs, y :: ys => x.equal y && equalItems xs ys
  | _, _ => false
end

theorem flat_list_cons (x : Datum) (xs : List Datum) :
    (list (x :: xs)).flat = push x.flat (list xs).flat := by
  rw [flat, flat, flatItems]
  cases flatItems xs <;> rfl

/-- Items in reverse in front of a flat datum. -/
def pushReverse (seen : List Datum) (t : Datum) : Datum := seen.foldl (fun t x => push x.flat t) t

theorem flat_consReverse (seen : List Datum) (t : Datum) :
    (consReverse seen t).flat = pushReverse seen t.flat := by
  unfold consReverse pushReverse
  induction seen generalizing t with
  | nil => rfl
  | cons x seen ih => rw [foldl_cons, foldl_cons, ih, flat]

theorem flat_list (xs : List Datum) : (list xs).flat = pushReverse xs.reverse .nil := by
  induction xs with
  | nil => rfl
  | cons x xs ih =>
    rw [flat_list_cons, ih, pushReverse, pushReverse, reverse_cons, foldl_append, foldl_cons,
      foldl_nil]

theorem flat_closed (seen : List Datum) : (Reader.closed seen).flat = pushReverse seen .nil := by
  cases seen with
  | nil => rfl
  | cons x seen => rw [Reader.closed, flat_list, reverse_reverse]; exact nofun

theorem flat_dotted (seen : List Datum) (t : Datum) :
    (Reader.dotted seen t).flat = pushReverse seen t.flat := by
  cases t with
  | list more => rw [Reader.dotted, flat_consReverse, chain, flat_consReverse, flat_list, flat]
  | atom | cons | nil => exact flat_consReverse seen _

theorem flat_rereadItems (xs seen : List Datum) :
    (rereadItems xs seen).flat = pushReverse seen (rereadItems xs []).flat := by
  induction xs generalizing seen with
  | nil => exact flat_closed seen
  | cons x xs ih =>
    simp only [rereadItems]
    rw [ih, ih [x.reread]]
    rfl

theorem flat_rereadTail (d : Datum) (seen : List Datum) :
    (d.rereadTail seen).flat = pushReverse seen d.reread.flat := by
  cases d with
  | cons a b =>
    rw [rereadTail, flat_rereadTail b, reread, flat_rereadTail b, pushReverse, foldl_cons]
    rfl
  | nil => exact flat_closed seen
  | atom | list => exact flat_dotted seen _

theorem flat_reread_list_cons (x : Datum) (xs : List Datum) :
    (list (x :: xs)).reread.flat = push x.reread.flat (list xs).reread.flat := by
  simp only [reread, rereadItems]
  rw [flat_rereadItems]
  rfl

theorem flat_reread_cons (a b : Datum) :
    (cons a b).reread.flat = push a.reread.flat b.reread.flat := by
  rw [reread, flat_rereadTail]
  rfl

theorem flat_ne_list_nil (d : Datum) : d.flat ≠ .list [] := by
  cases d with
  | atom | nil => exact nofun
  | list xs =>
    rw [flat]
    cases flatItems xs <;> simp [ofItems]
  | cons a b =>
    rw [flat]
    cases b.flat <;> simp [push]

theorem equal_push_iff {x y t u : Datum} (ht : t ≠ .list []) (hu : u ≠ .list []) :
    (push x t).equal (push y u) ↔ x.equal y ∧ t.equal u := by
  cases t <;> cases u <;> simp_all [push, equal, equalItems]

/-- The parts of the rest of a chain, its cells apart, are parts of the chain. -/
theorem Part.of_tail {a b : Datum} (H : Part k e b) (he : e.heads = []) :
    ∃ k, Part k e (.cons a b) := by
  cases H with
  | self =>
    refine ⟨1, .ending (cons_ne_nil _ _) ?_⟩
    rw [Datum.ending, ending_of_heads_nil he]
    exact .self
  | @item x xs k _ hx h => exact ⟨k + 2, .ending (cons_ne_nil _ _) (.item hx h)⟩
  | head hx h => exact ⟨_, .head (mem_cons_of_mem a hx) h⟩
  | ending _ h => exact ⟨_, .ending (cons_ne_nil _ _) h⟩

/-- What a text reads as is equal to the datum if that holds of the atoms. -/
theorem equal_flat_reread : ∀ d : Datum, (∀ k a, Part k (.atom a) d → a.reread.equal a) →
    d.reread.flat.equal d.flat
  | .atom a, H => H 0 a .self
  | .nil, _ => rfl
  | .list [], _ => rfl
  | .list (x :: xs), H => by
    rw [flat_reread_list_cons, flat_list_cons]
    refine (equal_push_iff (flat_ne_list_nil _) (flat_ne_list_nil _)).2
      ⟨equal_flat_reread x fun k a h => H _ a (.item mem_cons_self h),
        equal_flat_reread (.list xs) fun k a h => ?_⟩
    cases h with
    | item hx h => exact H _ a (.item (mem_cons_of_mem x hx) h)
    | head hx => cases hx
    | ending hd => exact absurd rfl hd
  | .cons a b, H => by
    rw [flat_reread_cons, flat]
    refine (equal_push_iff (flat_ne_list_nil _) (flat_ne_list_nil _)).2
      ⟨equal_flat_reread a fun k a h => H _ a (.head mem_cons_self h),
        equal_flat_reread b fun k a h => ?_⟩
    obtain ⟨k, h⟩ := h.of_tail rfl
    exact H k a h

end Datum

/-! ## Reading undoes printing -/

/-- A symbol reads as itself unless its name is a boolean or a numeral. -/
theorem Atom.reread_symbol {name : String} (ht : name ≠ "#t") (hf : name ≠ "#f")
    (hnumber : Literal.number? name.toList = none) : (Atom.symbol name).reread = .symbol name := by
  have hne {other : String} (h : name ≠ other) {cs : List Char} (hcs : other.toList = cs) :
      name.toList ≠ cs := fun heq => h (String.toList_inj.1 (heq.trans hcs.symm))
  rw [Atom.reread, Atom.print, Reader.wordAtom, if_neg (hne ht (by simp)),
    if_neg (hne hf (by simp)), hnumber]
  · simp only [String.ofList_toList, ite_self]
  · intro _ h
    cases h

/-- A number reads as an equal number exactly if it is finite: infinity reads as a symbol. -/
theorem Atom.equal_reread_number_iff {x : Binary64} :
    (Atom.number x).reread.equal (.number x) ↔ x.isFinite := by
  have hreread : (Atom.number x).reread = Reader.wordAtom x.print.toList := rfl
  rw [hreread]
  by_cases hx : x.isFinite
  · obtain ⟨y, hy, heq⟩ := Binary64.print_numeral hx
    rw [word_iff.1 (.number hy)]
    exact iff_of_true heq hx
  · refine iff_of_false (fun H => ?_) hx
    have hsymbol : Reader.wordAtom x.print.toList = .symbol x.print := by
      rcases Binary64.print_of_not_isFinite hx with h | h | h <;> rw [h] <;>
        exact Atom.reread_symbol (by decide) (by decide) (by simp; decide)
    rw [hsymbol] at H
    cases H

theorem Datum.read_text {d : Datum} {text : String} (H : d.Readable 0)
    (htext : text.toList = d.text) : Datum.read text = .ok d.reread := by
  have hrun : Reader.run .datum [] text.toList = .ok (d.reread, []) := by
    rw [htext, ← append_nil d.text]
    exact Reader.run_text d [] H trivial nofun
  exact read_iff_run.2 ⟨[], hrun, rfl⟩

/-- Reading undoes printing: a finite node whose symbols and numbers can be told from their text,
and which is neither too deep nor too long to be printed whole, is read back as an equal datum, up
to the form of lists. -/
theorem Heap.read_print_eq_ok {h : Heap} {n : Node} {d : Datum} (H : h.Unfolds n d)
    (hsymbols : ∀ k name, Datum.Part k (.symbol name) d →
      name ≠ "" ∧ (∀ c ∈ name.toList, isDelimiter c = false) ∧ name ∉ ["#t", "#f", "."] ∧
      Literal.number? name.toList = none)
    (hnumbers : ∀ k x, Datum.Part k (.atom (.number x)) d → x.isFinite)
    (hchains : ∀ k e, Datum.Part k e d → e.heads.length ≤ 65536)
    (hdepth : ∀ k e, Datum.Part k e d → k ≤ 255) :
    ∃ d', Datum.read (h.print n) = .ok d' ∧ d'.flat.equal d.flat := by
  have hlevels : ∀ k e, Datum.Part k e d → k < maxNesting + 1 := fun k e he =>
    Nat.lt_of_le_of_lt (hdepth k e he) (by decide)
  have htext : (h.print n).toList = d.text := by
    rw [Heap.print, H.printAt_eq hlevels, Datum.shown_eq_self hchains]
  have hreadable : d.Readable 0 := by
    intro k e he
    refine ⟨?_, ?_, ?_⟩
    · rw [Nat.zero_add]
      exact Nat.lt_succ_of_le (hdepth k e he)
    · rintro name rfl
      obtain ⟨hne, hword, -, -⟩ := hsymbols k name he
      exact ⟨fun h => hne (String.toList_inj.1 h), hword⟩
    · intro hdot
      obtain ⟨i, hi⟩ := he.trans (.of_item hdot .self)
      exact (hsymbols i "." hi).2.2.1 (by simp)
  refine ⟨d.reread, Datum.read_text hreadable htext, Datum.equal_flat_reread d fun k a ha => ?_⟩
  cases a with
  | string text => exact beq_self_eq_true _
  | symbol name =>
    obtain ⟨-, -, hspecial, hnumber⟩ := hsymbols k name ha
    simp only [mem_cons, not_or, not_mem_nil] at hspecial
    rw [Atom.reread_symbol hspecial.1 hspecial.2.1 hnumber]
    exact beq_self_eq_true _
  | number x => exact Atom.equal_reread_number_iff.2 (hnumbers k x ha)
  | bool b => cases b <;> rfl

/-- An empty array list, and a dotted chain whose end is a string with escapes. -/
theorem Heap.read_print_eq_ok_dotted :
    let d : Datum := .list [.symbol "a", .list [],
      .cons (.atom (.number ⟨0x3FF8000000000000⟩)) (.cons (.symbol "-") (.atom (.string "\"\n")))]
    let (h, n) := Heap.empty.store d
    ∃ d', Datum.read (h.print n) = .ok d' ∧ d'.flat.equal d.flat := by
  intro d
  have hparts : ∀ k e, Datum.Part k e d → k ≤ 255 ∧ e.heads.length ≤ 65536 ∧
      (∀ name, e = .symbol name → name = "a" ∨ name = "-") ∧
      ∀ x, e = .atom (.number x) → x = ⟨0x3FF8000000000000⟩ := by
    simp [d, Datum.symbol, Datum.forall_part_list, Datum.forall_part_cons, Datum.forall_part_atom,
      Datum.heads, Datum.ending]
  refine Heap.read_print_eq_ok (Heap.empty.store_unfolds d) (fun k name h => ?_) (fun k x h => ?_)
    (fun k e h => (hparts k e h).2.1) (fun k e h => (hparts k e h).1)
  · rcases (hparts k _ h).2.2.1 name rfl with rfl | rfl
    · exact ⟨by decide, by simp; decide, by decide, by simp; decide⟩
    · exact ⟨by decide, by simp; decide, by decide, by simp; decide⟩
  · rw [(hparts k _ h).2.2.2 x rfl]
    decide

end ListPress
