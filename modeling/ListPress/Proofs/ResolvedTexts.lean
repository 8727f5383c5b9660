import ListPress.Proofs.Chains
import ListPress.Proofs.SameContent
import ListPress.Proofs.Substitution

/-! # Variables act through texts only

Where the texts of a style sheet stand among its rules depends on the heads of the rules, after the
variables in them were resolved (`Sheet.Position`). Replacing every text by a string in which its
variables are resolved (`Datum.resolved`) takes all variables out of the rules: they can then be
pressed without any, and the style sheet is the same (`Heap.style_eq_of_resolved`). -/

namespace ListPress
open List

/-- An item at a place: a text is replaced, and a list is gone into, from the place of its first
item on. -/
def Sheet.Position.put (text : String) (inside : Position → Datum) (item : Datum)
    (place : Position) : Datum :=
  match place.role with
  | .list first => inside first
  | .text => .atom (.string text)
  | .unused => item

namespace Datum
open Sheet

section
variable (text : Datum → String)

mutual
/-- A list with strings for its texts, its first item being at `place`. -/
def withTexts : Position → Datum → Datum
  | place, .list xs => .list (withTextsItems place xs)
  | place, .cons a b =>
    .cons (place.put (text a) (withTexts · a) a) (withTextsTail (place.next (text a)) b)
  | _, .atom a => .atom a
  | _, .nil => .nil

def withTextsItems : Position → List Datum → List Datum
  | _, [] => []
  | place, x :: xs =>
    place.put (text x) (withTexts · x) x :: withTextsItems (place.next (text x)) xs

/-- The rest of a chain, whose end is left as it is. -/
def withTextsTail : Position → Datum → Datum
  | place, .cons a b =>
    .cons (place.put (text a) (withTexts · a) a) (withTextsTail (place.next (text a)) b)
  | _, .atom a => .atom a
  | _, .list xs => .list xs
  | _, .nil => .nil
end

/-- The item at a place, with strings for its texts. -/
def withText (place : Position) (d : Datum) : Datum := place.put (text d) (d.withTexts text ·) d

end

/-- The text of a datum with its variables resolved. -/
def resolve (vars : Bindings) (d : Datum) : String :=
  (Heap.empty.store d).1.resolve vars (Heap.empty.store d).2

/-- A list of rules with all its texts resolved. -/
def resolved (vars : Bindings) (d : Datum) : Datum := d.withTexts (resolve vars) .rule

variable {text : Datum → String} {place : Position}

theorem withTextsItems_cons (x : Datum) (xs : List Datum) :
    withTextsItems text place (x :: xs) =
      x.withText text place :: withTextsItems text (place.next (text x)) xs := rfl

theorem length_withTextsItems (xs : List Datum) :
    (withTextsItems text place xs).length = xs.length := by
  induction xs generalizing place with
  | nil => rfl
  | cons x xs ih => rw [withTextsItems_cons, length_cons, ih, length_cons]

theorem heads_withTextsTail : ∀ (d : Datum) (place : Position),
    (d.withTextsTail text place).heads = withTextsItems text place d.heads
  | .cons a b, place => congrArg (_ :: ·) (heads_withTextsTail b (place.next (text a)))
  | .atom _, _ | .list _, _ | .nil, _ => rfl

theorem heads_withTexts (d : Datum) :
    (d.withTexts text place).heads = withTextsItems text place d.heads := by
  cases d with
  | cons a b => exact congrArg (_ :: ·) (heads_withTextsTail b (place.next (text a)))
  | atom | list | nil => rfl

theorem items_withTexts (d : Datum) :
    (d.withTexts text place).items = withTextsItems text place d.items := by
  cases d with
  | list => rfl
  | atom | cons | nil => exact heads_withTexts _

end Datum

theorem resolveVars_unbound (text : String) : resolveVars .unbound text = text := by
  cases hwhole : Reference.whole? text.toList with
  | some name => exact resolveVars_of_whole hwhole
  | none =>
    obtain ⟨d⟩ := Reference.Division.exists_division text.toList
    have hstands := standsFor_resolveVars .unbound hwhole d
    rw [output_of_unbound d fun _ _ => rfl] at hstands
    have hself := hstands.unique (.self fun _ _ _ => rfl)
    rwa [String.ofList_toList] at hself

namespace Heap
variable {h : Heap} {n : Node} {d : Datum} {vars : Bindings}

theorem Unfolds.resolve_eq (H : h.Unfolds n d) (vars : Bindings) :
    h.resolve vars n = d.resolve vars := by
  rw [resolve, Datum.resolve, resolve, (H.same (empty.store_unfolds d)).stringOf_eq]

/-- The items of a finite node are those of its datum, unless its chain is too long. -/
theorem Unfolds.sequence_spec (H : h.Unfolds n d) :
    if d.heads.length ≤ maxChain then ∃ xs, h.sequence n = .ok xs ∧ Forall₂ h.Unfolds xs d.items
    else h.sequence n = .error .chainTooLong := by
  cases H with
  | atom | nil => exact ⟨[], rfl, .nil⟩
  | list hitems => exact ⟨_, rfl, hitems⟩
  | @cell a b id ha hb =>
    obtain ⟨nodes, hnodes, hheads⟩ := (Unfolds.cell ha hb).heads
    rw [hnodes.sequence_eq, hheads.length_eq]
    split
    · exact ⟨nodes, rfl, hheads⟩
    · rfl

end Heap

/-! ## Nodes with strings for their texts -/

namespace Sheet

/-- The second node is the first one, an item at `place`, with strings for its texts. -/
def Stands (h h' : Heap) (vars : Bindings) (place : Position) (n n' : Node) : Prop :=
  ∃ d, h.Unfolds n d ∧ h'.Unfolds n' (d.withText (Datum.resolve vars) place)

variable {h h' : Heap} {vars : Bindings} {place : Position} {n n' : Node} {xs xs' : List Node}

theorem placed_of_unfolds {items : List Datum} (H : Forall₂ h.Unfolds xs items)
    (H' : Forall₂ h'.Unfolds xs' (Datum.withTextsItems (Datum.resolve vars) place items)) :
    Placed (h.resolve vars) (Stands h h' vars) place xs xs' := by
  induction H generalizing place xs' with
  | nil =>
    cases H'
    exact .nil
  | @cons n d _ _ hn _ ih =>
    cases H' with
    | cons hn' H' =>
      rw [← hn.resolve_eq] at H'
      exact .cons ⟨d, hn, hn'⟩ (ih H')

theorem sequence_bind_eq {d : Datum} (H : h.Unfolds n d)
    (H' : h'.Unfolds n' (d.withTexts (Datum.resolve vars) place))
    {f g : List Node → Except StructureError String}
    (hfg : ∀ xs xs', Placed (h.resolve vars) (Stands h h' vars) place xs xs' → f xs = g xs') :
    h.sequence n >>= f = h'.sequence n' >>= g := by
  have hseq := H.sequence_spec
  have hseq' := H'.sequence_spec
  -- Items are replaced one for one, so either both chains fit or neither does.
  rw [Datum.heads_withTexts, Datum.length_withTextsItems, Datum.items_withTexts] at hseq'
  split at hseq
  · next hfit =>
    rw [if_pos hfit] at hseq'
    obtain ⟨xs, hxs, hitems⟩ := hseq
    obtain ⟨xs', hxs', hitems'⟩ := hseq'
    rw [hxs, hxs']
    exact hfg xs xs' (placed_of_unfolds hitems hitems')
  · next hfit =>
    rw [if_neg hfit] at hseq'
    rw [hseq, hseq']
    rfl

/-- A string that stands for a text is left as it is without variables. -/
theorem stands_simulation (h h' : Heap) (vars : Bindings) :
    Simulation h h' vars .unbound (Stands h h' vars) where
  text := by
    rintro place n n' hrole ⟨d, hn, hn'⟩
    rw [Datum.withText, Position.put, hrole] at hn'
    cases hn'
    rw [hn.resolve_eq, Heap.resolve, Heap.stringOf, resolveVars_unbound]
  items := by
    rintro place first n n' hrole ⟨d, hn, hn'⟩ f g hfg
    rw [Datum.withText, Position.put, hrole] at hn'
    exact sequence_bind_eq hn hn' hfg

end Sheet

/-- The style sheet of finite rules under variables is that of the rules with all their texts
resolved, pressed without variables. -/
theorem Heap.style_eq_of_resolved {h h' : Heap} {n n' : Node} {d : Datum} (vars : Bindings)
    (H : h.Unfolds n d) (H' : h'.Unfolds n' (d.resolved vars)) :
    h.style vars n = h'.style .unbound n' :=
  (Sheet.stands_simulation h h' vars).style_eq ⟨d, H, H'⟩

/-- A variable that makes a rule a media rule, so that the item after the query is a rule. -/
theorem Heap.style_eq_of_resolved_media :
    let vars : Bindings := ([("kind", "@media"), ("size", "print"), ("main", "red")].lookup ·)
    let rule : Datum := .cons (.atom (.symbol "p")) <|
      .cons (.list [.atom (.symbol "color"), .atom (.symbol "var(main)")]) .nil
    let rule' : Datum := .cons (.atom (.string "p")) <|
      .cons (.list [.atom (.string "color"), .atom (.string "red")]) .nil
    let d : Datum :=
      .list [.list [.atom (.symbol "var(kind)"), .atom (.symbol "at-var(size)"), rule]]
    let d' : Datum := .list [.list [.atom (.string "@media"), .atom (.string "at-print"), rule']]
    let css := "@media at-print \x7b\n  p \x7b\n    color: red;\n  \x7d\n\x7d\n"
    d.resolved vars = d' ∧ (empty.store d).1.style vars (empty.store d).2 = .ok css ∧
      (empty.store d').1.style .unbound (empty.store d').2 = .ok css := by
  intro vars rule rule' d d' css
  have hresolved : d.resolved vars = d' := by with_unfolding_all rfl
  have hstyle : (empty.store d).1.style vars (empty.store d).2 = .ok css := by decide +kernel
  have hd' : (empty.store d').1.Unfolds (empty.store d').2 (d.resolved vars) := by
    rw [hresolved]
    exact empty.store_unfolds d'
  refine ⟨hresolved, hstyle, ?_⟩
  rw [← style_eq_of_resolved vars (empty.store_unfolds d) hd', hstyle]

end ListPress
