import ListPress.Markup
import ListPress.Proofs.Traversal
import ListPress.Style

/-! # Simulations between nodes

Markup and style sheets look at a node in few ways: whether it is an atom, the string it holds, the
text it stands for, the text of its head and its items. A simulation is a relation between the nodes
of two heaps that all of these respect. Nodes in simulation have equal markup
(`Simulation.markup_eq`) and equal style sheets (`Simulation.style_eq`), however deep they are and
whether or not the heaps have cycles: the walkers are followed level by level and not along the
nodes.

For style sheets it is enough to respect what is seen of a node at its place in the rules, and the
variables may differ on the two sides (`Sheet.Simulation`). -/

namespace ListPress
open List

/-- Two walks that end in the same error or in lists of related items. -/
inductive Alike (R : α → β → Prop) : Except ε (List α) → Except ε (List β) → Prop
  | ok : Forall₂ R xs ys → Alike R (.ok xs) (.ok ys)
  | error : Alike R (.error e) (.error e)

/-- What markup and style sheets can see of a node is the same on both sides of `R`. -/
structure Simulation (h₁ h₂ : Heap) (R : Node → Node → Prop) : Prop where
  isList : R n₁ n₂ → n₁.isList = n₂.isList
  string : R n₁ n₂ → n₁.string? = n₂.string?
  text : R n₁ n₂ → h₁.stringOf n₁ = h₂.stringOf n₂
  head : R n₁ n₂ → (h₁.headOf n₁).map h₁.stringOf = (h₂.headOf n₂).map h₂.stringOf
  items : R n₁ n₂ → Alike R (h₁.sequence n₁) (h₂.sequence n₂)

theorem Alike.bind_eq {R : α → β → Prop} {x : Except ε (List α)} {y : Except ε (List β)}
    {f : List α → Except ε γ} {g : List β → Except ε γ} (H : Alike R x y)
    (hf : ∀ xs ys, Forall₂ R xs ys → f xs = g ys) : x >>= f = y >>= g := by
  cases H with
  | ok h => exact hf _ _ h
  | error => rfl

/-- Related items are printed alike where related nodes are. -/
theorem Heap.map_printAt_eq {h₁ h₂ : Heap} {levels : Nat} {R : Node → Node → Prop}
    (H : Forall₂ R xs ys)
    (hprint : ∀ {n₁ n₂}, R n₁ n₂ → h₁.printAt levels n₁ = h₂.printAt levels n₂) :
    xs.map (h₁.printAt levels) = ys.map (h₂.printAt levels) :=
  map_eq_of_forall₂ H fun _ _ _ => hprint

namespace Markup

theorem escaped_cons (h : Heap) (expr : Node) (rest : List Node) :
    escaped h (expr :: rest) =
      (expr.string?.map escapeHtml).getD ("<%= " ++ h.stringOf expr ++ " %>") := by
  unfold escaped Node.string?
  split <;> simp_all

theorem raw_cons (h : Heap) (expr : Node) (rest : List Node) :
    raw h (expr :: rest) = expr.string?.getD ("<%- " ++ h.stringOf expr ++ " %>") := by
  unfold raw Node.string?
  split <;> simp_all

theorem isAttributeList_eq (h : Heap) (node : Node) :
    isAttributeList h node =
      (((h.headOf node).map h.stringOf).map (Form.ofHead · == .attributes)).getD false := by
  unfold isAttributeList
  cases h.headOf node <;> rfl

end Markup

theorem Heap.markupAt_of_isList (h : Heap) (levels : Nat) {node : Node} (hl : node.isList) :
    h.markupAt (levels + 1) node = h.sequence node >>= Markup.form h (h.markupAt levels) := by
  cases node with
  | atom => cases hl
  | list | cell | nil => rfl

namespace Simulation
variable {h₁ h₂ : Heap} {R : Node → Node → Prop}

/-! ## Markup -/

section
variable {render₁ render₂ : Node → Except StructureError String}

theorem concat_eq (hr : ∀ n₁ n₂, R n₁ n₂ → render₁ n₁ = render₂ n₂) (H : Forall₂ R xs ys) :
    Markup.concat render₁ xs = Markup.concat render₂ ys := by
  rw [Markup.concat, Markup.concat, mapM_eq_of_forall₂ H hr]

theorem attributeTexts_eq (hr : ∀ n₁ n₂, R n₁ n₂ → render₁ n₁ = render₂ n₂) :
    ∀ {xs ys : List Node}, Forall₂ R xs ys → ∀ seen,
      Markup.attributeTexts render₁ xs seen = Markup.attributeTexts render₂ ys seen
  | _, _, .nil, _ | _, _, .cons _ .nil, _ => rfl
  | _, _, .cons h1 (.cons h2 H), seen => by
    rw [Markup.attributeTexts, Markup.attributeTexts, hr _ _ h1, hr _ _ h2]
    simp only [attributeTexts_eq hr H]

variable (S : Simulation h₁ h₂ R)
include S

theorem escaped_eq (H : Forall₂ R xs ys) : Markup.escaped h₁ xs = Markup.escaped h₂ ys := by
  cases H with
  | nil => rfl
  | cons h _ => rw [Markup.escaped_cons, Markup.escaped_cons, S.string h, S.text h]

theorem raw_eq (H : Forall₂ R xs ys) : Markup.raw h₁ xs = Markup.raw h₂ ys := by
  cases H with
  | nil => rfl
  | cons h _ => rw [Markup.raw_cons, Markup.raw_cons, S.string h, S.text h]

variable (hr : ∀ n₁ n₂, R n₁ n₂ → render₁ n₁ = render₂ n₂)
include hr

theorem conditional_eq (H : Forall₂ R xs ys) :
    Markup.conditional h₁ render₁ xs = Markup.conditional h₂ render₂ ys := by
  rcases H with _ | ⟨hcond, _ | ⟨hyes, _ | ⟨hno, _⟩⟩⟩
  · rfl
  · simp only [Markup.conditional, S.text hcond]
  · simp only [Markup.conditional, S.text hcond, hr _ _ hyes]
  · simp only [Markup.conditional, S.text hcond, hr _ _ hyes, hr _ _ hno]

theorem loop_eq (H : Forall₂ R xs ys) :
    Markup.loop h₁ render₁ xs = Markup.loop h₂ render₂ ys := by
  rcases H with _ | ⟨hvar, _ | ⟨_, _ | ⟨hexpr, hbody⟩⟩⟩
  · rfl
  · rfl
  · rfl
  · simp only [Markup.loop, S.text hvar, S.text hexpr, concat_eq hr hbody]

theorem splitAttributes_bind_eq {f g : String × List Node → Except StructureError γ}
    (hf : ∀ attrs xs ys, Forall₂ R xs ys → f (attrs, xs) = g (attrs, ys)) (H : Forall₂ R xs ys) :
    Markup.splitAttributes h₁ render₁ xs >>= f = Markup.splitAttributes h₂ render₂ ys >>= g := by
  cases H with
  | nil => exact hf _ _ _ .nil
  | @cons first₁ first₂ _ _ hfirst hrest =>
    have hattr : Markup.isAttributeList h₁ first₁ = Markup.isAttributeList h₂ first₂ := by
      rw [Markup.isAttributeList_eq, Markup.isAttributeList_eq, S.head hfirst]
    simp only [Markup.splitAttributes, hattr, hr _ _ hfirst]
    split
    · simp only [bind_assoc, pure_bind, hf _ _ _ hrest]
    · exact hf _ _ _ (.cons hfirst hrest)

theorem element_eq (tag : String) (H : Forall₂ R xs ys) :
    Markup.element h₁ render₁ tag xs = Markup.element h₂ render₂ tag ys := by
  refine S.splitAttributes_bind_eq hr (fun attrs children₁ children₂ hchildren => ?_) H
  simp only [concat_eq hr hchildren]

theorem form_eq (H : Forall₂ R xs ys) :
    Markup.form h₁ render₁ xs = Markup.form h₂ render₂ ys := by
  cases H with
  | nil => rfl
  | cons hhead hargs =>
    simp only [Markup.form, S.text hhead, S.escaped_eq hargs, S.raw_eq hargs,
      S.conditional_eq hr hargs, S.loop_eq hr hargs, S.element_eq hr _ hargs, Markup.attributes,
      attributeTexts_eq hr hargs]

end

theorem markupAt_eq (S : Simulation h₁ h₂ R) (levels : Nat) (H : R n₁ n₂) :
    h₁.markupAt levels n₁ = h₂.markupAt levels n₂ := by
  induction levels generalizing n₁ n₂ with
  | zero => rfl
  | succ levels ih =>
    have hl := S.isList H
    cases n₁ with
    | atom a =>
      cases n₂ with
      | atom b => exact congrArg Except.ok (S.text H)
      | list | cell | nil => cases hl
    | list | cell | nil =>
      rw [h₁.markupAt_of_isList levels rfl, h₂.markupAt_of_isList levels (hl ▸ rfl)]
      exact (S.items H).bind_eq fun _ _ => S.form_eq fun _ _ => ih

theorem markup_eq (S : Simulation h₁ h₂ R) (H : R n₁ n₂) : h₁.markup n₁ = h₂.markup n₂ :=
  S.markupAt_eq _ H

end Simulation

/-! ## Style sheets -/

namespace Sheet

/-- The places of items in the rules of a style sheet. -/
inductive Position where
  | sheet
  | rule
  /-- The head of a rule. -/
  | head
  /-- What a media rule applies to. -/
  | query
  /-- The name of an animation. -/
  | animation
  | frame
  /-- The head of a frame. -/
  | label
  | property
  /-- The name of a property. -/
  | name
  /-- The value of a property. -/
  | value
  /-- What follows the value of a property. -/
  | rest

/-- What an item at a place is taken for. -/
inductive Role where
  /-- A list, whose first item is at the place `first`. -/
  | list (first : Position)
  | text
  | unused

def Position.role : Position → Role
  | .sheet => .list .rule
  | .rule => .list .head
  | .frame => .list .label
  | .property => .list .name
  | .head | .query | .animation | .label | .name | .value => .text
  | .rest => .unused

/-- The place of the next item, from the text of an item. The text counts for the head of a rule. -/
def Position.next (text : String) : Position → Position
  | .head =>
    match RuleKind.ofHead text with
    | .media => .query
    | .keyframes => .animation
    | .selector => .property
  | .rule | .query => .rule
  | .frame | .animation => .frame
  | .property | .label => .property
  | .name => .value
  | .value | .rest | .sheet => .rest

section
variable (text : Node → String) (R : Position → Node → Node → Prop)

/-- Lists whose items are related at their places, the first ones at `place`. -/
inductive Placed : Position → List Node → List Node → Prop
  | nil : Placed place [] []
  | cons : R place n₁ n₂ → Placed (place.next (text n₁)) xs ys →
    Placed place (n₁ :: xs) (n₂ :: ys)

end

/-- What a style sheet shows of an item at its place is the same on both sides of `R`: its text, and
for a list the items at their places or the error. -/
structure Simulation (h₁ h₂ : Heap) (vars₁ vars₂ : Bindings)
    (R : Position → Node → Node → Prop) : Prop where
  text : place.role = .text → R place n₁ n₂ → h₁.resolve vars₁ n₁ = h₂.resolve vars₂ n₂
  items : place.role = .list first → R place n₁ n₂ →
    ∀ {f g : List Node → Except StructureError String},
      (∀ xs ys, Placed (h₁.resolve vars₁) R first xs ys → f xs = g ys) →
        h₁.sequence n₁ >>= f = h₂.sequence n₂ >>= g

variable {R : Position → Node → Node → Prop}

/-- Where the place does not change, all items are related at it. -/
theorem Placed.forall₂ (hplace : ∀ text, place.next text = place) (H : Placed text R place xs ys) :
    Forall₂ (R place) xs ys := by
  induction H with
  | nil => exact .nil
  | cons hn _ ih =>
    rw [hplace] at ih
    exact .cons hn (ih hplace)

/-- A relation that does not look at places relates items at any place. -/
theorem placed_of_forall₂ {R : Node → Node → Prop} (H : Forall₂ R xs ys) :
    Placed text (fun _ => R) place xs ys := by
  induction H generalizing place with
  | nil => exact .nil
  | cons hn _ ih => exact .cons hn ih

namespace Simulation
variable {h₁ h₂ : Heap} {vars₁ vars₂ : Bindings}

section
variable (S : Simulation h₁ h₂ vars₁ vars₂ R) (indent : String)
include S

theorem property_eq (H : R .property n₁ n₂) :
    Style.property h₁ vars₁ indent n₁ = Style.property h₂ vars₂ indent n₂ := by
  refine S.items rfl H fun xs ys hitems => ?_
  rcases hitems with _ | ⟨hname, _ | ⟨hvalue, _⟩⟩
  · rfl
  · rfl
  · simp only [S.text rfl hname, S.text rfl hvalue]

theorem properties_eq (H : Placed (h₁.resolve vars₁) R .property xs ys) :
    Style.properties h₁ vars₁ indent xs = Style.properties h₂ vars₂ indent ys := by
  rw [Style.properties, Style.properties,
    mapM_eq_of_forall₂ (H.forall₂ fun _ => rfl) fun _ _ => S.property_eq indent]

theorem frame_eq (H : R .frame n₁ n₂) :
    Style.frame h₁ vars₁ indent n₁ = Style.frame h₂ vars₂ indent n₂ := by
  refine S.items rfl H fun xs ys hitems => ?_
  cases hitems with
  | nil => rfl
  | cons hlabel hnodes => simp only [S.text rfl hlabel, S.properties_eq _ hnodes]

theorem keyframes_eq (H : Placed (h₁.resolve vars₁) R .animation xs ys) :
    Style.keyframes h₁ vars₁ indent xs = Style.keyframes h₂ vars₂ indent ys := by
  cases H with
  | nil => rfl
  | cons hname hframes =>
    simp only [Style.keyframes, S.text rfl hname,
      mapM_eq_of_forall₂ (hframes.forall₂ fun _ => rfl) fun _ _ => S.frame_eq _]

variable {nested₁ nested₂ : List Node → Except StructureError String}
  (hn : ∀ xs ys, Placed (h₁.resolve vars₁) R .rule xs ys → nested₁ xs = nested₂ ys)
include hn

theorem media_eq (H : Placed (h₁.resolve vars₁) R .query xs ys) :
    Style.media h₁ vars₁ nested₁ indent xs = Style.media h₂ vars₂ nested₂ indent ys := by
  rcases H with _ | ⟨hquery, _ | ⟨hrule, hrules⟩⟩
  · rfl
  · rfl
  · simp only [Style.media, S.text rfl hquery, hn _ _ (.cons hrule hrules)]

theorem rule_eq (H : R .rule n₁ n₂) :
    Style.rule h₁ vars₁ nested₁ indent n₁ = Style.rule h₂ vars₂ nested₂ indent n₂ := by
  refine S.items rfl H fun xs ys hitems => ?_
  cases hitems with
  | nil => rfl
  | cons hhead hargs =>
    simp only [← S.text rfl hhead]
    rw [Position.next] at hargs
    -- The kind of the rule decides the places of the arguments and the text.
    split
    · next hkind =>
      rw [hkind] at hargs
      exact S.media_eq indent hn hargs
    · next hkind =>
      rw [hkind] at hargs
      exact S.keyframes_eq indent hargs
    · next hkind =>
      rw [hkind] at hargs
      rw [S.properties_eq _ hargs]

end

theorem rulesAt_eq (S : Simulation h₁ h₂ vars₁ vars₂ R) (levels : Nat) (indent : String)
    (H : Placed (h₁.resolve vars₁) R .rule xs ys) :
    Style.rulesAt h₁ vars₁ levels indent xs = Style.rulesAt h₂ vars₂ levels indent ys := by
  induction levels generalizing indent xs ys with
  | zero => rfl
  | succ levels ih =>
    have hn : ∀ xs ys, Placed (h₁.resolve vars₁) R .rule xs ys → _ := fun _ _ =>
      ih (indent ++ Style.indentStep)
    rw [Style.rulesAt, Style.rulesAt,
      mapM_eq_of_forall₂ (H.forall₂ fun _ => rfl) fun _ _ => S.rule_eq indent hn]

theorem style_eq (S : Simulation h₁ h₂ vars₁ vars₂ R) (H : R .sheet n₁ n₂) :
    h₁.style vars₁ n₁ = h₂.style vars₂ n₂ :=
  S.items rfl H fun _ _ => S.rulesAt_eq _ _

end Simulation
end Sheet

namespace Simulation
variable {h₁ h₂ : Heap} {R : Node → Node → Prop}

theorem sheet (S : Simulation h₁ h₂ R) (vars : Bindings) :
    Sheet.Simulation h₁ h₂ vars vars fun _ => R where
  text _ H := by rw [Heap.resolve, Heap.resolve, S.text H]
  items _ H := fun hfg =>
    (S.items H).bind_eq fun xs ys hitems => hfg xs ys (Sheet.placed_of_forall₂ hitems)

theorem style_eq (S : Simulation h₁ h₂ R) (vars : Bindings) (H : R n₁ n₂) :
    h₁.style vars n₁ = h₂.style vars n₂ :=
  (S.sheet vars).style_eq H

end Simulation
end ListPress
