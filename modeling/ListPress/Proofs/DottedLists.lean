import ListPress.Proofs.ReadData
import ListPress.Proofs.Representation
import ListPress.Proofs.SameContent
import ListPress.Proofs.Series

/-! # Dotted lists

Between its parentheses a list is a series of data, its dot among them, and these data decide what
the list denotes (`Grammar.Enclosed`, `Form.series`, `Series.form`). The data behind the dot can
therefore be put in front of the closing parenthesis without the dot: a list that goes on in a list
behind its dot denotes the same items as a list that goes on by itself (`Enclosed.splice`), and
nothing that is made of the two tells them apart (`Heap.output_eq_of_dotted`). -/

namespace ListPress
open List

namespace Grammar

/-- What the data between two parentheses denote together. A dot has data before it and one datum
behind it. -/
inductive Enclosed : List Datum → Datum → Prop
  | empty : Enclosed [] .nil
  | list : xs ≠ [] → .dot ∉ xs → Enclosed xs (.list xs)
  | dotted : xs ≠ [] → .dot ∉ xs → Enclosed (xs ++ [.dot, t]) (continued xs t)

variable {depth : Nat} {cs cs' rest stop : List Char} {d e t : Datum} {xs ys ds : List Datum}

theorem continued_continued (xs : List Datum) (t : Datum) (hne : ys ≠ []) :
    continued xs (continued ys t) = continued (xs ++ ys) t := by
  obtain ⟨y, ys, rfl⟩ := exists_cons_of_ne_nil hne
  cases t with
  | list more =>
    simp only [continued, append_assoc, Datum.chain_append xs]
    simp only [cons_append, Datum.chain_cons]
  | atom | cons | nil =>
    simp only [continued, Datum.chain_append xs]
    simp only [Datum.chain_cons]

/-- Data that denote a list can stand behind the dot of another list or take its place. They make up
the same datum, or a chain and the array list of its heads. -/
theorem Enclosed.splice (hne : xs ≠ []) (hdot : .dot ∉ xs) (H : Enclosed ys t) :
    ∃ e, Enclosed (xs ++ ys) e ∧
      (continued xs t = e ∨ ∃ items, continued xs t = .chain items .nil ∧ e = .list items) := by
  cases H with
  | empty =>
    rw [append_nil]
    exact ⟨.list xs, .list hne hdot, .inr ⟨xs, rfl, rfl⟩⟩
  | list _ hdot' =>
    have hmem : .dot ∉ xs ++ ys := by simp [hdot, hdot']
    refine ⟨.list (xs ++ ys), .list (append_ne_nil_of_left_ne_nil hne ys) hmem, .inr ?_⟩
    exact ⟨xs ++ ys, rfl, rfl⟩
  | @dotted ys t hne' hdot' =>
    have hmem : .dot ∉ xs ++ ys := by simp [hdot, hdot']
    refine ⟨_, ?_, .inl (continued_continued xs t hne')⟩
    rw [← append_assoc]
    exact .dotted (append_ne_nil_of_left_ne_nil hne ys) hmem

theorem Enclosed.eq_continued (H : Enclosed (xs ++ [.dot, t]) d) :
    xs ≠ [] ∧ .dot ∉ xs ∧ d = continued xs t := by
  generalize hds : xs ++ [.dot, t] = ds at H
  cases H with
  | empty => simp at hds
  | list _ hdot =>
    subst hds
    simp at hdot
  | dotted hne hdot =>
    obtain ⟨rfl, heq⟩ := append_inj' hds rfl
    cases heq
    exact ⟨hne, hdot, rfl⟩

/-! ## The text of a list -/

theorem data_dot (H : Separators cs ('.' :: rest)) (hb : Boundary rest)
    (hdepth : depth < maxReadDepth) : Data depth cs .dot rest := by
  have hword : IsWord ['.'] := ⟨cons_ne_nil _ _, forall_mem_singleton.2 (by decide)⟩
  have hatom : Word ['.'] (.symbol ".") := word_iff.2 rfl
  exact .intro hdepth H (.word hword hb hatom)

theorem Data.eq_dot {rest' : List Char} (H : Data depth cs d rest)
    (hs : Separators cs ('.' :: rest')) (hb : Boundary rest') : d = .dot ∧ rest = rest' :=
  H.unique (data_dot hs hb (by decide : 0 < maxReadDepth))

theorem Form.dot (H : Form depth cs d rest) (hd : d = .dot) : Dot cs := by
  cases H with
  | quote | empty | list | string => cases hd
  | @dotted _ _ items _ _ t _ _ hitems =>
    have hheads := congrArg Datum.heads hd
    rw [Datum.continued_eq, Datum.heads_chain, append_assoc] at hheads
    exact absurd (append_eq_nil_iff.1 hheads).1 hitems.ne_nil
  | @word w _ _ _ hw hb ha =>
    cases ha with
    | symbol =>
      have hname : String.ofList w = "." := Atom.symbol.inj (Datum.atom.inj hd)
      have hw : w = ['.'] := by rw [← String.toList_ofList (l := w), hname]; simp
      exact ⟨rest, hw ▸ .none, hb⟩
    | true | false | number => cases hd

theorem Data.ne_dot (H : Data depth cs d rest) (hdot : ¬Dot cs) : d ≠ .dot := by
  rintro rfl
  cases H with
  | intro _ hs h =>
    obtain ⟨rest, hs', hb⟩ := h.dot rfl
    exact hdot ⟨rest, hs.trans hs', hb⟩

theorem Data.dot_iff (H : Data depth cs d rest) : Dot cs ↔ d = .dot := by
  constructor
  · rintro ⟨rest', hs, hb⟩
    exact (H.eq_dot hs hb).1
  · intro hd
    by_contra hdot
    exact H.ne_dot hdot hd

theorem Data.not_closing (H : Data depth cs d rest) : ¬Separators cs (')' :: cs') := by
  intro hs
  have hrun := Reader.data_iff_run.1 (H.mono (Nat.zero_le depth))
  rw [Reader.run_of_scans (.closing hs)] at hrun
  cases hrun

theorem Form.skip_eq (H : Form depth cs d rest) : Lexeme.skip cs = cs := by
  cases H with
  | quote | empty | list | dotted | string => rfl
  | @word w _ _ _ hw =>
    cases w with
    | nil => exact absurd rfl hw.1
    | cons c w =>
      obtain ⟨-, -, -, -, hc, hs⟩ := not_mem_delimiters (hw.2 c mem_cons_self)
      exact skip_of_separators .none hs hc

theorem Data.form (H : Data depth cs d rest) (hs : Separators cs ('(' :: cs')) :
    Form depth ('(' :: cs') d rest := by
  cases H with
  | @intro _ _ start _ _ _ hstart hform =>
    have hskip := hstart.skip_eq
    rw [skip_of_separators hs (by decide) (by decide), hform.skip_eq] at hskip
    rwa [hskip]

theorem Run.series {cs : List Char} {xs : List Datum} (H : Series depth stop cs' ds) :
    Run depth cs xs cs' → Series depth stop cs (xs ++ ds)
  | .last _ hd => .datum hd H
  | .cons _ hd hitems => .datum hd (Run.series H hitems)

theorem Run.dot_not_mem {cs : List Char} {xs : List Datum} : Run depth cs xs cs' → .dot ∉ xs
  | .last hdot hd => by
    rw [mem_singleton]
    exact (hd.ne_dot hdot).symm
  | .cons hdot hd hitems => by
    rw [mem_cons, not_or]
    exact ⟨(hd.ne_dot hdot).symm, hitems.dot_not_mem⟩

theorem Series.run (H : Series depth stop cs (xs ++ ds)) (hne : xs ≠ []) (hdot : .dot ∉ xs) :
    ∃ cs', Run depth cs xs cs' ∧ Series depth stop cs' ds := by
  induction xs generalizing cs with
  | nil => exact absurd rfl hne
  | cons x xs ih =>
    rw [mem_cons, not_or] at hdot
    cases H with
    | @datum _ _ rest _ hx H =>
      have hxdot : ¬Dot cs := by
        rw [hx.dot_iff]
        exact Ne.symm hdot.1
      by_cases hxs : xs = []
      · subst hxs
        exact ⟨rest, .last hxdot hx, H⟩
      · obtain ⟨cs', hrun, H⟩ := ih H hxs hdot.2
        exact ⟨cs', .cons hxdot hx hrun, H⟩

theorem Form.series (H : Form depth ('(' :: cs) e rest) :
    ∃ ds, Series (depth + 1) (')' :: rest) cs ds ∧ Enclosed ds e := by
  generalize hstart : '(' :: cs = start at H
  cases H with
  | quote | string => cases hstart
  | empty hclose =>
    cases hstart
    exact ⟨[], .finish hclose, .empty⟩
  | list hitems hclose =>
    cases hstart
    refine ⟨_, Run.series (.finish hclose) hitems, ?_⟩
    rw [append_nil]
    exact .list hitems.ne_nil hitems.dot_not_mem
  | dotted hitems hpoint hb ht hclose =>
    cases hstart
    cases ht with
    | intro hdepth hs hform =>
      have hdot := data_dot hpoint hb hdepth
      have hend := Series.datum hdot (.datum (.intro hdepth hs hform) (.finish hclose))
      exact ⟨_, Run.series hend hitems, .dotted hitems.ne_nil hitems.dot_not_mem⟩
  | @word w _ _ _ hw =>
    cases w with
    | nil => exact absurd rfl hw.1
    | cons c w =>
      cases hstart
      exact absurd (hw.2 '(' mem_cons_self) (by decide)

theorem Series.form (H : Series (depth + 1) (')' :: rest) cs ds) (henclosed : Enclosed ds e) :
    Form depth ('(' :: cs) e rest := by
  cases henclosed with
  | empty =>
    cases H with
    | finish hclose => exact .empty hclose
  | list hne hdot =>
    rw [← append_nil ds] at H
    obtain ⟨cs', hitems, H⟩ := H.run hne hdot
    cases H with
    | finish hclose => exact .list hitems hclose
  | dotted hne hdot =>
    obtain ⟨cs', hitems, H⟩ := H.run hne hdot
    cases H with
    | datum hpoint H =>
      cases H with
      | datum ht H =>
        cases H with
        | finish hclose =>
          obtain ⟨rest', hs, hb⟩ := hpoint.dot_iff.2 rfl
          obtain ⟨-, rfl⟩ := hpoint.eq_dot hs hb
          exact .dotted hitems hs hb ht hclose

/-! ## Series that start alike -/

theorem Data.of_skip (H : Data depth cs d rest) (hs : Separators cs cs') :
    Data depth cs' d rest := by
  rw [data_iff_run_quotes, Reader.run_eq, Lexeme.scan] at H ⊢
  rwa [← hs.skip_eq]

theorem Series.of_skip (H : Series depth (')' :: rest) cs ds) (hs : Separators cs cs') :
    Series depth (')' :: rest) cs' ds := by
  cases H with
  | finish hclose =>
    have hskip : Lexeme.skip cs' = ')' :: rest := by
      rw [← hs.skip_eq, skip_of_separators hclose (by decide) (by decide)]
    exact .finish (hskip ▸ separators_skip cs')
  | datum hd H => exact .datum (hd.of_skip hs) H

theorem Series.mono {depth' : Nat} (H : Series depth stop cs ds) (hle : depth' ≤ depth) :
    Series depth' stop cs ds := by
  induction H with
  | finish hs => exact .finish hs
  | datum hd _ ih => exact .datum (hd.mono hle) ih

theorem Series.closing (H : Series depth (')' :: rest) (')' :: cs) ds) : ds = [] ∧ cs = rest := by
  cases H with
  | finish hs =>
    have hskip := skip_of_separators hs (by decide) (by decide)
    cases hskip
    exact ⟨rfl, rfl⟩
  | datum hd => exact absurd .none hd.not_closing

/-- A list whose text starts with the lines of a series starts with its data, and reads on behind
them. -/
theorem Series.split {after : List Char} (H : Series 0 [] cs xs)
    (L : Series depth (')' :: rest) (cs ++ '\n' :: after) ds) :
    Series depth [] cs xs ∧ ∃ more, ds = xs ++ more ∧ Series depth (')' :: rest) after more := by
  induction H generalizing ds with
  | finish hs =>
    obtain ⟨gap, rfl, hgap⟩ := hs.replace nofun
    rw [append_nil] at L
    have hline : Separators (gap ++ '\n' :: after) after :=
      (hgap _ fun _ => .lineFeed).trans (.space (by simp) .none)
    exact ⟨.finish hs, ds, rfl, L.of_skip hline⟩
  | datum hd _ ih =>
    have hlong := (@data_append_line_iff _ _ _ after _).2 hd
    cases L with
    | finish hs => exact absurd hs hlong.not_closing
    | datum hd' L =>
      obtain ⟨rfl, rfl⟩ := hlong.unique hd'
      obtain ⟨hseries, more, rfl, hmore⟩ := ih L
      exact ⟨.datum (data_append_line_iff.1 hd') hseries, more, rfl, hmore⟩

/-- Behind the dot there is one datum. -/
theorem Series.behind_dot (H : Series depth (')' :: rest) ('.' :: ' ' :: '(' :: cs) ds) :
    ∃ t cs' more, ds = .dot :: t :: more ∧ Form depth ('(' :: cs) t cs' ∧
      Series depth (')' :: rest) cs' more := by
  have hspace : Separators (' ' :: '(' :: cs) ('(' :: cs) := .space (by simp) .none
  have hdot : Data 0 ('.' :: ' ' :: '(' :: cs) .dot (' ' :: '(' :: cs) :=
    data_dot .none (Reader.boundary_cons (by decide) _) (by decide)
  cases H with
  | finish hs => exact absurd hs hdot.not_closing
  | datum hd H =>
    obtain ⟨rfl, rfl⟩ := hdot.unique hd
    cases H with
    | finish hs =>
      have hskip := hs.skip_eq.symm.trans hspace.skip_eq
      cases hskip
    | datum ht H => exact ⟨_, _, _, rfl, ht.form hspace, H⟩

end Grammar

namespace Datum
open Grammar

/-- What can be read with a list behind the dot can be read without the dot, as the same datum or,
where a chain was read, as the array list of its heads. -/
theorem read_without_dot {x y : String} {xs ys : List Datum} {d : Datum} (hx : readAll x = .ok xs)
    (hy : readAll y = .ok ys) (H : read ("(" ++ x ++ "\n. (" ++ y ++ "\n))") = .ok d) :
    ∃ e, read ("(" ++ x ++ "\n" ++ y ++ "\n)") = .ok e ∧
      (d = e ∨ ∃ items, d = .chain items .nil ∧ e = .list items) := by
  have hdotted : ("(" ++ x ++ "\n. (" ++ y ++ "\n))").toList =
      '(' :: (x.toList ++ '\n' :: '.' :: ' ' :: '(' :: (y.toList ++ '\n' :: ')' :: [')'])) := by
    simp
  have hplain : ("(" ++ x ++ "\n" ++ y ++ "\n)").toList =
      '(' :: (x.toList ++ '\n' :: (y.toList ++ '\n' :: [')'])) := by
    simp
  rw [readAll_eq_ok_iff] at hx hy
  obtain ⟨rest, hdata, hrest⟩ := denotes_of_read H
  rw [hdotted] at hdata
  obtain ⟨ds, hds, hd⟩ := (hdata.form .none).series
  obtain ⟨hxs, more, rfl, hmore⟩ := hx.split hds
  obtain ⟨t, cs, more, rfl, htail, hend⟩ := hmore.behind_dot
  obtain ⟨es, hes, ht⟩ := htail.series
  obtain ⟨hys, more', rfl, hend'⟩ := hy.split hes
  -- the two parentheses at the end close the inner list and the outer one
  obtain ⟨rfl, rfl⟩ := hend'.closing
  obtain ⟨rfl, rfl⟩ := hend.closing
  rw [append_nil] at ht
  obtain ⟨hne, hdot, rfl⟩ := hd.eq_continued
  obtain ⟨e, he, hsame⟩ := Enclosed.splice hne hdot ht
  have hclose : Series 1 [')'] [')'] [] := .finish .none
  have hlines := hxs.append ((hys.mono (Nat.le_succ 1)).append hclose)
  rw [append_nil] at hlines
  refine ⟨e, read_of_denotes ⟨[], ?_, .none⟩, hsame⟩
  rw [hplain]
  exact .intro (by decide) .none (hlines.form he)

end Datum

/-! ## Lists of the same items -/

namespace Heap
variable {h₁ h₂ : Heap} {n₁ n₂ : Node}

/-- Nodes with the same content, or lists without a dot whose items have the same content. -/
inductive SameItems (h₁ h₂ : Heap) : Node → Node → Prop
  | same {n₁ n₂ : Node} : Same h₁ h₂ n₁ n₂ → SameItems h₁ h₂ n₁ n₂
  | list {n₁ n₂ : Node} {nodes₁ nodes₂ : List Node} : h₁.Shows n₁ nodes₁ none →
    h₂.Shows n₂ nodes₂ none → Forall₂ (Same h₁ h₂) nodes₁ nodes₂ → SameItems h₁ h₂ n₁ n₂

theorem SameItems.print_eq (H : SameItems h₁ h₂ n₁ n₂) : h₁.print n₁ = h₂.print n₂ := by
  cases H with
  | same H => exact H.print_eq
  | list hs₁ hs₂ hnodes =>
    have hitems := map_printAt_eq hnodes fun h => h.printAt_eq maxNesting
    rw [print, print, hs₁.printAt_eq, hs₂.printAt_eq, hitems]
    rfl

theorem SameItems.stringOf_eq (H : SameItems h₁ h₂ n₁ n₂) :
    h₁.stringOf n₁ = h₂.stringOf n₂ := by
  cases H with
  | same H => exact H.stringOf_eq
  | list hs₁ hs₂ hnodes =>
    rw [h₁.stringOf_of_isList hs₁.isList, h₂.stringOf_of_isList hs₂.isList]
    exact (SameItems.list hs₁ hs₂ hnodes).print_eq

theorem sameItems_simulation (h₁ h₂ : Heap) : Simulation h₁ h₂ (SameItems h₁ h₂) where
  isList H := by
    cases H with
    | same H => exact (same_simulation h₁ h₂).isList H
    | list hs₁ hs₂ => rw [hs₁.isList, hs₂.isList]
  string H := by
    cases H with
    | same H => exact (same_simulation h₁ h₂).string H
    | list hs₁ hs₂ =>
      rw [Node.string?_of_isList hs₁.isList, Node.string?_of_isList hs₂.isList]
  text H := H.stringOf_eq
  head H := by
    cases H with
    | same H => exact (same_simulation h₁ h₂).head H
    | list hs₁ hs₂ hnodes =>
      rw [hs₁.headOf_eq, hs₂.headOf_eq]
      cases hnodes with
      | nil => rfl
      | cons hx _ => exact congrArg some hx.stringOf_eq
  items H := by
    cases H with
    | same H =>
      have hitems := H.sequence_alike
      generalize h₁.sequence _ = items₁, h₂.sequence _ = items₂ at hitems ⊢
      cases hitems with
      | ok hitems => exact .ok (hitems.imp fun _ _ => .same)
      | error => exact .error
    | list hs₁ hs₂ hnodes =>
      rw [hs₁.sequence_eq, hs₂.sequence_eq]
      exact .ok (hnodes.imp fun _ _ => .same)

theorem sameItems_of_chain {items : List Datum} (H₁ : h₁.Unfolds n₁ (.chain items .nil))
    (H₂ : h₂.Unfolds n₂ (.list items)) (hfit : (Datum.chain items .nil).heads.length ≤ maxChain) :
    SameItems h₁ h₂ n₁ n₂ := by
  have hlists := Datum.Lists.chain items
  obtain ⟨nodes₁, rest, hs₁, hnodes₁, hrest⟩ := H₁.shows hfit hlists.not_atom
  rw [hlists.items_eq] at hnodes₁
  rw [hlists.dotted?_eq] at hrest
  cases hrest
  cases H₂ with
  | list hnodes₂ =>
    refine .list hs₁ .array ?_
    exact forall₂_of_common (fun _ _ _ h₁ h₂ => h₁.same h₂) hnodes₁.flip hnodes₂.flip

/-- A list that goes on in a list behind its dot is read, line by line, like a list that goes on
without the dot: where the first text is read, so is the second, and nodes that hold what is read have
the same printed form, the same markup and the same style sheet under any variables, unless the
first one is a chain that is too long to be walked. -/
theorem output_eq_of_dotted {x y : String} {xs ys : List Datum} {d : Datum}
    (hx : Datum.readAll x = .ok xs) (hy : Datum.readAll y = .ok ys)
    (H : Datum.read ("(" ++ x ++ "\n. (" ++ y ++ "\n))") = .ok d)
    (hfit : d.heads.length ≤ maxChain) :
    ∃ e, Datum.read ("(" ++ x ++ "\n" ++ y ++ "\n)") = .ok e ∧
      ∀ (h₁ h₂ : Heap) (n₁ n₂ : Node), h₁.Unfolds n₁ d → h₂.Unfolds n₂ e →
        h₁.print n₁ = h₂.print n₂ ∧ h₁.markup n₁ = h₂.markup n₂ ∧
          ∀ vars, h₁.style vars n₁ = h₂.style vars n₂ := by
  obtain ⟨e, he, hsame⟩ := Datum.read_without_dot hx hy H
  refine ⟨e, he, fun h₁ h₂ n₁ n₂ H₁ H₂ => ?_⟩
  have hitems : SameItems h₁ h₂ n₁ n₂ := by
    obtain rfl | ⟨items, rfl, rfl⟩ := hsame
    · exact .same (H₁.same H₂)
    · exact sameItems_of_chain H₁ H₂ hfit
  have S := sameItems_simulation h₁ h₂
  exact ⟨hitems.print_eq, S.markup_eq hitems, fun vars => S.style_eq vars hitems⟩

/-- The first line ends in a comment with a dot, and the list behind the dot has a dot itself. -/
theorem output_eq_of_dotted_comment :
    let d : Datum := .chain [.symbol "p", .list [.symbol "quote", .symbol "a"], .symbol "b"] .nil
    Datum.readAll "p ;." = .ok [.symbol "p"] ∧
      Datum.readAll "'a . (b)" =
        .ok [.list [.symbol "quote", .symbol "a"], .dot, .list [.symbol "b"]] ∧
      Datum.read ("(" ++ "p ;." ++ "\n. (" ++ "'a . (b)" ++ "\n))") = .ok d ∧
      d.heads.length ≤ maxChain ∧
      ∃ e, Datum.read ("(" ++ "p ;." ++ "\n" ++ "'a . (b)" ++ "\n)") = .ok e ∧
        (empty.store d).1.markup (empty.store d).2 =
          (empty.store e).1.markup (empty.store e).2 := by
  intro d
  have hx : Datum.readAll "p ;." = .ok [.symbol "p"] := by with_unfolding_all rfl
  have hy : Datum.readAll "'a . (b)" =
      .ok [.list [.symbol "quote", .symbol "a"], .dot, .list [.symbol "b"]] := by
    with_unfolding_all rfl
  have hread : Datum.read ("(" ++ "p ;." ++ "\n. (" ++ "'a . (b)" ++ "\n))") = .ok d := by
    with_unfolding_all rfl
  have hfit : d.heads.length ≤ maxChain := by
    simp [d, Datum.heads, maxChain]
  obtain ⟨e, he, houtput⟩ := output_eq_of_dotted hx hy hread hfit
  have hmarkup := (houtput _ _ _ _ (empty.store_unfolds d) (empty.store_unfolds e)).2.1
  exact ⟨hx, hy, hread, hfit, e, he, hmarkup⟩

end Heap
end ListPress
