import ListPress.Proofs.JsonInterchange
import ListPress.Proofs.Simulation

/-! # Why walks fail

Markup, style sheets and JSON are made by walks over a node, from a list to its items. Whatever the
form of the lists in it, such a walk fails for two reasons only (`Heap.Cause`): a node lies too
deep, or a chain is too long. So finite nodes within both bounds can always be pressed
(`Heap.fails_only_beyond_bounds`), and for JSON, which is made of every node that is met, the bounds
decide in any heap (`Heap.toJson_isOk_iff`). -/

namespace ListPress
open List

namespace Heap

/-! ## Depths -/

/-- The nodes that are met going from lists to their items, with their depths below the root. -/
inductive Met (h : Heap) (root : Node) : Nat → Node → Prop
  | root : Met h root 0 root
  | item : Met h root k n → h.sequence n = .ok xs → x ∈ xs → Met h root (k + 1) x

/-- What makes a walk over `levels` levels fail. -/
inductive Cause (h : Heap) (levels : Nat) (n : Node) : StructureError → Prop
  | deep : h.Met n k m → levels ≤ k → Cause h levels n .nestingTooDeep
  | long {id : Nat} : h.Met n k (.cell id) → h.TooLong (.cell id) → Cause h levels n .chainTooLong

variable {h : Heap} {n m x : Node} {k j levels : Nat} {xs : List Node} {e : StructureError}

theorem Met.trans (H : h.Met n k m) (H' : h.Met m j x) : h.Met n (k + j) x := by
  induction H' with
  | root => exact H
  | item _ hseq hx ih => exact .item ih hseq hx

theorem Cause.of_met (H : h.Met n k m) (hm : h.sequence m = .error e) : h.Cause levels n e := by
  obtain ⟨rfl, id, rfl, hlong⟩ := sequence_eq_error_iff.1 hm
  exact .long H hlong

theorem Cause.of_sequence (H : h.sequence n = .error e) : h.Cause levels n e := .of_met .root H

theorem Cause.item (H : h.Cause levels x e) (hseq : h.sequence n = .ok xs) (hx : x ∈ xs) :
    h.Cause (levels + 1) n e := by
  have hmet : h.Met n (0 + 1) x := .item .root hseq hx
  cases H with
  | deep H hk => exact .deep (hmet.trans H) (by omega)
  | long H hlong => exact .long (hmet.trans H) hlong

theorem Cause.mono (H : h.Cause levels n e) (hle : j ≤ levels) : h.Cause j n e := by
  cases H with
  | deep H hk => exact .deep H (Nat.le_trans hle hk)
  | long H hlong => exact .long H hlong

end Heap

/-! ## Markup

A form fails only when the rendering of one of its arguments does. -/

namespace Markup
variable {h : Heap} {render : Node → Except StructureError String} {args : List Node}
  {e : StructureError}

theorem exists_of_concat_eq_error (H : concat render args = .error e) :
    ∃ n ∈ args, render n = .error e :=
  exists_of_mapM_eq_error (map_eq_error_iff.1 H)

theorem exists_of_conditional_eq_error (H : conditional h render args = .error e) :
    ∃ n ∈ args, render n = .error e := by
  rcases args with _ | ⟨cond, _ | ⟨yes, _ | ⟨no, rest⟩⟩⟩
  · cases H
  · cases H
  · obtain hyes | ⟨_, _, H⟩ := bind_eq_error_iff.1 H
    · exact ⟨yes, by simp, hyes⟩
    · cases H
  · obtain hyes | ⟨_, _, H⟩ := bind_eq_error_iff.1 H
    · exact ⟨yes, by simp, hyes⟩
    obtain hno | ⟨_, _, H⟩ := bind_eq_error_iff.1 H
    · exact ⟨no, by simp, hno⟩
    · cases H

theorem exists_of_loop_eq_error (H : loop h render args = .error e) :
    ∃ n ∈ args, render n = .error e := by
  rcases args with _ | ⟨var, _ | ⟨word, _ | ⟨expr, body⟩⟩⟩
  · cases H
  · cases H
  · cases H
  · obtain hbody | ⟨_, _, H⟩ := bind_eq_error_iff.1 H
    · obtain ⟨n, hn, hfail⟩ := exists_of_concat_eq_error hbody
      exact ⟨n, by simp [hn], hfail⟩
    · cases H

theorem exists_of_attributeTexts_eq_error {seen : List String}
    (H : attributeTexts render args seen = .error e) : ∃ n ∈ args, render n = .error e := by
  fun_induction attributeTexts render args seen with
  | case1 key value rest seen ih =>
    obtain hkey | ⟨_, _, H⟩ := bind_eq_error_iff.1 H
    · exact ⟨key, by simp, hkey⟩
    obtain hvalue | ⟨_, _, H⟩ := bind_eq_error_iff.1 H
    · exact ⟨value, by simp, hvalue⟩
    obtain ⟨n, hn, hfail⟩ := ih _ _ H
    exact ⟨n, by simp [hn], hfail⟩
  | case2 => cases H

theorem exists_of_splitAttributes_eq_error (H : splitAttributes h render args = .error e) :
    ∃ n ∈ args, render n = .error e := by
  cases args with
  | nil => cases H
  | cons first rest =>
    rw [splitAttributes] at H
    split at H
    · obtain hfirst | ⟨_, _, H⟩ := bind_eq_error_iff.1 H
      · exact ⟨first, mem_cons_self, hfirst⟩
      · cases H
    · cases H

theorem mem_of_splitAttributes {attrs : String} {children : List Node}
    (H : splitAttributes h render args = .ok (attrs, children)) {n : Node} (hn : n ∈ children) :
    n ∈ args := by
  cases args with
  | nil =>
    cases H
    exact hn
  | cons first rest =>
    rw [splitAttributes] at H
    split at H
    · obtain ⟨_, _, H⟩ := bind_eq_ok_iff.1 H
      cases H
      exact mem_cons_of_mem first hn
    · cases H
      exact hn

theorem exists_of_element_eq_error {tag : String} (H : element h render tag args = .error e) :
    ∃ n ∈ args, render n = .error e := by
  obtain hsplit | ⟨⟨attrs, children⟩, hsplit, H⟩ := bind_eq_error_iff.1 H
  · exact exists_of_splitAttributes_eq_error hsplit
  obtain hcontent | ⟨content, _, H⟩ := bind_eq_error_iff.1 H
  · obtain ⟨n, hn, hfail⟩ := exists_of_concat_eq_error hcontent
    exact ⟨n, mem_of_splitAttributes hsplit hn, hfail⟩
  · split at H <;> cases H

theorem exists_of_form_eq_error {items : List Node} (H : form h render items = .error e) :
    ∃ n ∈ items, render n = .error e := by
  cases items with
  | nil => cases H
  | cons head args =>
    have hargs : ∃ n ∈ args, render n = .error e := by
      simp only [form] at H
      split at H
      · cases H
      · cases H
      · exact exists_of_conditional_eq_error H
      · exact exists_of_loop_eq_error H
      · exact exists_of_attributeTexts_eq_error (map_eq_error_iff.1 H)
      · exact exists_of_element_eq_error H
    obtain ⟨n, hn, hfail⟩ := hargs
    exact ⟨n, mem_cons_of_mem head hn, hfail⟩

end Markup

namespace Heap
variable {h : Heap} {n : Node} {levels : Nat} {e : StructureError}

theorem cause_of_markupAt (H : h.markupAt levels n = .error e) : h.Cause levels n e := by
  induction levels generalizing n with
  | zero =>
    cases H
    exact .deep .root (Nat.le_refl 0)
  | succ levels ih =>
    cases n with
    | atom => cases H
    | list | cell | nil =>
      rw [h.markupAt_of_isList levels rfl] at H
      obtain hseq | ⟨items, hseq, H⟩ := bind_eq_error_iff.1 H
      · exact .of_sequence hseq
      obtain ⟨x, hx, hfail⟩ := Markup.exists_of_form_eq_error H
      exact (ih hfail).item hseq hx

/-! ## JSON -/

theorem cause_of_toJsonAt (H : h.toJsonAt levels n = .error e) : h.Cause levels n e := by
  induction levels generalizing n with
  | zero =>
    cases H
    exact .deep .root (Nat.le_refl 0)
  | succ levels ih =>
    cases n with
    | atom | nil => cases H
    | list | cell =>
      rw [h.toJsonAt_of_isList levels rfl (by simp)] at H
      obtain hseq | ⟨items, hseq, H⟩ := bind_eq_error_iff.1 H
      · exact .of_sequence hseq
      obtain ⟨x, hx, hfail⟩ := exists_of_mapM_eq_error (map_eq_error_iff.1 H)
      exact (ih hfail).item hseq hx

end Heap

/-! ## Style sheets

Properties and frames do not count levels, and so they fail only at a chain. -/

namespace Style
variable {h : Heap} {vars : Bindings} {indent : String} {n : Node} {nodes : List Node}
  {levels : Nat} {e : StructureError}

theorem sequence_of_property_eq_error (H : property h vars indent n = .error e) :
    h.sequence n = .error e := by
  obtain hseq | ⟨items, _, H⟩ := bind_eq_error_iff.1 H
  · exact hseq
  · split at H <;> cases H

theorem exists_of_properties_eq_error (H : properties h vars indent nodes = .error e) :
    ∃ n ∈ nodes, h.sequence n = .error e := by
  obtain ⟨n, hn, hfail⟩ := exists_of_mapM_eq_error (map_eq_error_iff.1 H)
  exact ⟨n, hn, sequence_of_property_eq_error hfail⟩

theorem cause_of_frame (H : frame h vars indent n = .error e) : h.Cause levels n e := by
  obtain hseq | ⟨items, hseq, H⟩ := bind_eq_error_iff.1 H
  · exact .of_sequence hseq
  cases items with
  | nil => cases H
  | cons label props =>
    obtain ⟨x, hx, hfail⟩ := exists_of_properties_eq_error (map_eq_error_iff.1 H)
    exact .of_met (.item .root hseq (mem_cons_of_mem label hx)) hfail

theorem exists_of_keyframes_eq_error (H : keyframes h vars indent nodes = .error e) :
    ∃ n ∈ nodes, h.Cause levels n e := by
  cases nodes with
  | nil => cases H
  | cons name frames =>
    obtain hframes | ⟨_, _, H⟩ := bind_eq_error_iff.1 H
    · obtain ⟨n, hn, hfail⟩ := exists_of_mapM_eq_error hframes
      exact ⟨n, mem_cons_of_mem name hn, cause_of_frame hfail⟩
    · cases H

section
variable {nested : List Node → Except StructureError String}
  (hnested : ∀ rules, rules ≠ [] → nested rules = .error e → ∃ n ∈ rules, h.Cause levels n e)
include hnested

theorem exists_of_media_eq_error (H : media h vars nested indent nodes = .error e) :
    ∃ n ∈ nodes, h.Cause levels n e := by
  rcases nodes with _ | ⟨query, _ | ⟨rule, rules⟩⟩
  · cases H
  · cases H
  · obtain ⟨n, hn, hcause⟩ := hnested _ (cons_ne_nil _ _) (map_eq_error_iff.1 H)
    exact ⟨n, mem_cons_of_mem query hn, hcause⟩

theorem cause_of_rule (H : rule h vars nested indent n = .error e) :
    h.Cause (levels + 1) n e := by
  obtain hseq | ⟨items, hseq, H⟩ := bind_eq_error_iff.1 H
  · exact .of_sequence hseq
  cases items with
  | nil => cases H
  | cons head args =>
    have hargs : ∃ x ∈ args, h.Cause levels x e := by
      dsimp only at H
      split at H
      · exact exists_of_media_eq_error hnested H
      · exact exists_of_keyframes_eq_error H
      · obtain ⟨x, hx, hfail⟩ := exists_of_properties_eq_error (map_eq_error_iff.1 H)
        exact ⟨x, hx, .of_sequence hfail⟩
    obtain ⟨x, hx, hcause⟩ := hargs
    exact hcause.item hseq (mem_cons_of_mem head hx)

end

theorem exists_of_rulesAt_eq_error (hnodes : nodes ≠ [])
    (H : rulesAt h vars levels indent nodes = .error e) : ∃ n ∈ nodes, h.Cause levels n e := by
  induction levels generalizing indent nodes with
  | zero =>
    -- Only rules inside a media rule come this far, and there is at least one.
    obtain ⟨n, rest, rfl⟩ := exists_cons_of_ne_nil hnodes
    cases H
    exact ⟨n, mem_cons_self, .deep .root (Nat.le_refl 0)⟩
  | succ levels ih =>
    obtain ⟨n, hn, hfail⟩ := exists_of_mapM_eq_error (map_eq_error_iff.1 H)
    exact ⟨n, hn, cause_of_rule (fun rules => ih) hfail⟩

end Style

theorem Heap.cause_of_style {h : Heap} {vars : Bindings} {n : Node} {e : StructureError}
    (H : h.style vars n = .error e) : h.Cause (maxNesting + 1) n e := by
  obtain hseq | ⟨items, hseq, H⟩ := bind_eq_error_iff.1 H
  · exact .of_sequence hseq
  cases items with
  | nil => cases H
  | cons first rest =>
    -- The levels are counted from the rules on, which lie one level below the node.
    obtain ⟨x, hx, hcause⟩ := Style.exists_of_rulesAt_eq_error (cons_ne_nil _ _) H
    exact (hcause.item hseq hx).mono (Nat.le_succ _)

/-! ## Finite nodes -/

/-- The data that are met going from lists to their items, with their depths. What follows the dot
of a chain is not an item. -/
inductive Datum.Below (d : Datum) : Nat → Datum → Prop
  | self : Below d 0 d
  | item : Below d k e → x ∈ e.items → Below d (k + 1) x

theorem Datum.Below.part {d e : Datum} (H : d.Below k e) : Part k e d := by
  induction H with
  | self => exact .self
  | item _ hx ih => exact ih.snoc hx

namespace Heap
variable {h : Heap} {n m : Node} {d : Datum} {j k levels : Nat} {e : StructureError}

theorem Met.unfolds (H : h.Met n k m) (hn : h.Unfolds n d) :
    ∃ x, h.Unfolds m x ∧ d.Below k x := by
  induction H with
  | root => exact ⟨d, hn, .self⟩
  | item _ hseq hx ih =>
    obtain ⟨y, hy, hbelow⟩ := ih
    obtain ⟨x, hmem, hx⟩ := exists_mem_of_forall₂ (hy.items (items_of_sequence hseq)) hx
    exact ⟨x, hx, .item hbelow hmem⟩

theorem Cause.below (H : h.Cause (maxNesting + 1) n e) (hn : h.Unfolds n d) :
    (e = .nestingTooDeep → ∃ k x, d.Below k x ∧ maxNesting < k) ∧
      (e = .chainTooLong → ∃ k x, d.Below k x ∧ maxChain < x.heads.length) := by
  cases H with
  | deep hmet hk =>
    obtain ⟨x, -, hbelow⟩ := hmet.unfolds hn
    exact ⟨fun _ => ⟨_, x, hbelow, hk⟩, nofun⟩
  | long hmet hlong =>
    obtain ⟨x, hx, hbelow⟩ := hmet.unfolds hn
    obtain ⟨nodes, hnodes, hheads⟩ := hx.heads
    exact ⟨nofun, fun _ => ⟨_, x, hbelow, hheads.length_eq ▸ hlong nodes hnodes⟩⟩

theorem not_cause (H : h.Unfolds n d)
    (hbounds : ∀ k x, d.Below k x → k ≤ maxNesting ∧ x.heads.length ≤ maxChain) :
    ¬ h.Cause (maxNesting + 1) n e := by
  intro hcause
  obtain ⟨hdeep, hlong⟩ := hcause.below H
  cases e with
  | nestingTooDeep =>
    obtain ⟨k, x, hbelow, hk⟩ := hdeep rfl
    exact Nat.not_lt.2 (hbounds k x hbelow).1 hk
  | chainTooLong =>
    obtain ⟨k, x, hbelow, hx⟩ := hlong rfl
    exact Nat.not_lt.2 (hbounds k x hbelow).2 hx

/-- Whatever a finite node is made of, its markup, its style sheet and its JSON fail only when a
node lies more than `maxNesting` levels below it or a chain in it has more than `maxChain` cells. So
a node within both bounds can be pressed in all three ways. -/
theorem fails_only_beyond_bounds (H : h.Unfolds n d) (vars : Bindings) :
    (∀ e, h.markup n = .error e ∨ h.style vars n = .error e ∨ h.toJson n = .error e →
      (e = .nestingTooDeep → ∃ k x, d.Below k x ∧ maxNesting < k) ∧
      (e = .chainTooLong → ∃ k x, d.Below k x ∧ maxChain < x.heads.length)) ∧
    ((∀ k x, d.Below k x → k ≤ maxNesting ∧ x.heads.length ≤ maxChain) →
      (∃ text, h.markup n = .ok text) ∧ (∃ text, h.style vars n = .ok text) ∧
        ∃ v, h.toJson n = .ok v) := by
  refine ⟨?_, fun hbounds => ⟨?_, ?_, ?_⟩⟩
  · rintro e (hfail | hfail | hfail)
    · exact (cause_of_markupAt hfail).below H
    · exact (cause_of_style hfail).below H
    · exact (cause_of_toJsonAt hfail).below H
  · exact exists_eq_ok fun e hfail => not_cause H hbounds (cause_of_markupAt hfail)
  · exact exists_eq_ok fun e hfail => not_cause H hbounds (cause_of_style hfail)
  · exact exists_eq_ok fun e hfail => not_cause H hbounds (cause_of_toJsonAt hfail)

/-- Forms with arguments missing, in a chain that ends in an array list, lie within the bounds; the
empty node inside more than `maxNesting` elements does not. -/
theorem fails_only_beyond_bounds_malformed :
    let sym := Datum.symbol
    let forms : Datum := .chain [sym "p", .list [sym "if"], .chain [sym "for", sym "x"] (sym "y"),
      .list [sym "@", sym "id"], .nil, .list []] (.list [sym "end"])
    let nested : Datum := (fun d => .list [sym "p", d])^[maxNesting + 1] .nil
    let stored := empty.store forms
    let deep := empty.store nested
    (∃ text, stored.1.markup stored.2 = .ok text) ∧
      (∃ text, stored.1.style .unbound stored.2 = .ok text) ∧
      (∃ v, stored.1.toJson stored.2 = .ok v) ∧
      deep.1.markup deep.2 = .error .nestingTooDeep ∧
      ∃ k x, nested.Below k x ∧ maxNesting < k := by
  intro sym forms nested stored deep
  have hbounds : ∀ k x, forms.Below k x → k ≤ maxNesting ∧ x.heads.length ≤ maxChain := by
    have hparts : ∀ k x, Datum.Part k x forms → k ≤ maxNesting ∧ x.heads.length ≤ maxChain := by
      simp [forms, sym, Datum.symbol, Datum.forall_part_list, Datum.forall_part_cons,
        Datum.forall_part_atom, Datum.forall_part_nil, Datum.heads, Datum.ending, maxChain,
        maxNesting]
    exact fun k x hbelow => hparts k x hbelow.part
  have hdeep : deep.1.markup deep.2 = .error .nestingTooDeep := by decide +kernel
  obtain ⟨hmarkup, hstyle, hjson⟩ :=
    (fails_only_beyond_bounds (empty.store_unfolds forms) .unbound).2 hbounds
  exact ⟨hmarkup, hstyle, hjson, hdeep,
    ((fails_only_beyond_bounds (empty.store_unfolds nested) .unbound).1 _ (.inl hdeep)).1 rfl⟩

/-! ## JSON in any heap -/

/-- JSON that was made of a node was made of every node met below it. -/
theorem Met.toJsonAt {v : Json} (H : h.Met n k m) (hn : h.toJsonAt levels n = .ok v) :
    ∃ j w, levels = k + (j + 1) ∧ h.toJsonAt (j + 1) m = .ok w := by
  induction H with
  | root =>
    cases levels with
    | zero => cases hn
    | succ levels => exact ⟨levels, v, (Nat.zero_add _).symm, hn⟩
  | @item k m xs x _ hseq hx ih =>
    obtain ⟨j, w, rfl, hw⟩ := ih
    have hlist : m.isList ∧ m ≠ .nil := by
      cases m with
      | atom | nil =>
        cases hseq
        cases hx
      | list | cell => exact ⟨rfl, by simp⟩
    rw [h.toJsonAt_of_isList j hlist.1 hlist.2, hseq] at hw
    obtain ⟨values, hvalues, -⟩ := map_eq_ok_iff.1 hw
    obtain ⟨w, hw⟩ := mapM_isOk_iff.1 ⟨values, hvalues⟩ x hx
    cases j with
    | zero => cases hw
    | succ j => exact ⟨j, w, by omega, hw⟩

theorem not_tooLong_of_toJsonAt {id : Nat} {v : Json}
    (H : h.toJsonAt (levels + 1) (.cell id) = .ok v) : ¬ h.TooLong (.cell id) := by
  intro hlong
  have hseq := sequence_eq_error_iff.2 ⟨rfl, id, rfl, hlong⟩
  rw [h.toJsonAt_of_isList levels rfl (by simp), hseq] at H
  cases H

theorem toJsonAt_isOk_iff (h : Heap) (levels : Nat) (n : Node) :
    (∃ v, h.toJsonAt levels n = .ok v) ↔ (∀ k m, h.Met n k m → k < levels) ∧
      ∀ k id, h.Met n k (.cell id) → ¬ h.TooLong (.cell id) := by
  constructor
  · rintro ⟨v, hv⟩
    refine ⟨fun k m hmet => ?_, fun k id hmet => ?_⟩
    · obtain ⟨j, w, hlevels, -⟩ := hmet.toJsonAt hv
      omega
    · obtain ⟨j, w, -, hw⟩ := hmet.toJsonAt hv
      exact not_tooLong_of_toJsonAt hw
  · rintro ⟨hdepth, hchain⟩
    refine exists_eq_ok fun e hfail => ?_
    cases cause_of_toJsonAt hfail with
    | deep hmet hk => exact Nat.not_lt.2 hk (hdepth _ _ hmet)
    | long hmet hlong => exact hchain _ _ hmet hlong

/-- A node that is met again below itself is met as deep as one likes. -/
theorem Met.again (H : h.Met n k m) (hm : h.Met m j m) (i : Nat) : h.Met n (k + i * j) m := by
  induction i with
  | zero => simpa using H
  | succ i ih =>
    rw [Nat.succ_mul, ← Nat.add_assoc]
    exact ih.trans hm

/-- JSON can be made of a node exactly when no node is met below `maxNesting` levels and no chain
that is met has more than `maxChain` cells. So it fails on every cycle, whether it is closed through
items and heads or through tails. -/
theorem toJson_isOk_iff (h : Heap) (n : Node) :
    ((∃ v, h.toJson n = .ok v) ↔
      (∀ k m, h.Met n k m → k ≤ maxNesting) ∧
        ∀ k id, h.Met n k (.cell id) → ¬ h.TooLong (.cell id)) ∧
    ∀ k id, h.Met n k (.cell id) →
      ((∃ j > 0, h.Met (.cell id) j (.cell id)) ∨
        ∃ ids c, h.Leads (.cell id) ids (.cell c) ∧ c ∈ ids) →
      ∃ e, h.toJson n = .error e := by
  have hiff := h.toJsonAt_isOk_iff (maxNesting + 1) n
  simp only [Nat.lt_succ_iff] at hiff
  refine ⟨hiff, fun k id hmet hcycle => ?_⟩
  cases hjson : h.toJson n with
  | error e => exact ⟨e, rfl⟩
  | ok v =>
    obtain ⟨hdepth, hchain⟩ := hiff.1 ⟨v, hjson⟩
    rcases hcycle with ⟨j, hj, hround⟩ | ⟨ids, c, hleads, hc⟩
    · have hdeep := hdepth _ _ (hmet.again hround (maxNesting + 1))
      have hlevels := Nat.le_mul_of_pos_right (maxNesting + 1) hj
      omega
    · have hlong : h.TooLong (.cell id) := fun xs hxs => absurd hxs (hleads.endless hc xs)
      exact absurd hlong (hchain k id hmet)

/-- A cell that holds a list of itself, and two cells that are each other's tails. -/
theorem toJson_isOk_iff_circular :
    let h : Heap := ⟨#[⟨.list [.cell 0], .nil⟩, ⟨.nil, .cell 2⟩, ⟨.nil, .cell 1⟩]⟩
    (∃ e, h.toJson (.list [.nil, .cell 0]) = .error e) ∧
      ∃ e, h.toJson (.list [.cell 1]) = .error e := by
  intro h
  have hseq : h.sequence (.cell 0) = .ok [.list [.cell 0]] := by rfl
  have hround : h.Met (.cell 0) 2 (.cell 0) :=
    .item (.item .root hseq mem_cons_self) rfl mem_cons_self
  have hleads : h.Leads (.cell 1) [1, 2] (.cell 1) := .cell (.cell .stay)
  refine ⟨?_, ?_⟩
  · exact (toJson_isOk_iff h _).2 1 0 (.item .root rfl (by simp)) (.inl ⟨2, by simp, hround⟩)
  · exact (toJson_isOk_iff h _).2 1 1 (.item .root rfl (by simp)) (.inr ⟨_, 1, hleads, by simp⟩)

end Heap
end ListPress
