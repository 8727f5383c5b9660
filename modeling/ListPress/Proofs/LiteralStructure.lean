import ListPress.Proofs.SameContent

/-! # Literals and the structure of markup

The tags and attributes of markup are read off the characters `<`, `>`, `"` and `'` in it, its
marks. Two templates that differ only in the literals of escaped forms, where these are rendered and
not printed as part of an expression (`Heap.Varies`), have markup with the same marks, or fail alike
(`Heap.marks_markup_eq`). Whether content is empty decides how an element is closed, so this is
carried along: the outline of a text is whether it is empty, and its marks. -/

namespace ListPress
open List

/-- The characters that delimit tags and attribute values. -/
def isMark (c : Char) : Bool := c == '<' || c == '>' || c == '"' || c == '\''

/-- The marks of a text, in order. -/
def marks (text : String) : List Char := text.toList.filter isMark

/-! ## Templates that differ in literals -/

/-- The arguments of a form with other literals. `S` relates nodes that are the same, and `R` nodes
that are rendered and differ in literals only. -/
inductive ArgsVary (S R : Node → Node → Prop) : Form → List Node → List Node → Prop
  | same : Forall₂ S xs ys → ArgsVary S R form xs ys
  | literal : text₁ ≠ "" → text₂ ≠ "" → Forall₂ S xs ys →
    ArgsVary S R .escaped (.string text₁ :: xs) (.string text₂ :: ys)
  | branches : S cond₁ cond₂ → Forall₂ R xs ys →
    ArgsVary S R .conditional (cond₁ :: xs) (cond₂ :: ys)
  | body : S var₁ var₂ → S word₁ word₂ → S expr₁ expr₂ → Forall₂ R xs ys →
    ArgsVary S R .loop (var₁ :: word₁ :: expr₁ :: xs) (var₂ :: word₂ :: expr₂ :: ys)
  | attributes : Forall₂ R xs ys → ArgsVary S R .attributes xs ys
  | children : Forall₂ R xs ys → ArgsVary S R .element xs ys

namespace Heap

/-- A list with the same head and arguments with other literals, in the same form of list. Chains
that never end cannot be rendered, so of these only the first heads are compared. -/
inductive ListVaries (h₁ h₂ : Heap) (R : Node → Node → Prop) : Node → Node → Prop
  | array : Same h₁ h₂ head₁ head₂ →
    ArgsVary (Same h₁ h₂) R (.ofHead (h₁.stringOf head₁)) args₁ args₂ →
    ListVaries h₁ h₂ R (.list (head₁ :: args₁)) (.list (head₂ :: args₂))
  | chain {i j : Nat} : h₁.Heads (.cell i) (head₁ :: args₁) → h₂.Heads (.cell j) (head₂ :: args₂) →
    Same h₁ h₂ head₁ head₂ → ArgsVary (Same h₁ h₂) R (.ofHead (h₁.stringOf head₁)) args₁ args₂ →
    ListVaries h₁ h₂ R (.cell i) (.cell j)
  | endless {i j : Nat} : h₁.Endless (.cell i) → h₂.Endless (.cell j) →
    Same h₁ h₂ (h₁.head i) (h₂.head j) → ListVaries h₁ h₂ R (.cell i) (.cell j)

/-- The templates are the same but for literals of escaped forms that are rendered: the template
itself, and in it children of elements, keys and values of attributes, branches and bodies. -/
def Varies (h₁ h₂ : Heap) (n₁ n₂ : Node) : Prop :=
  ∃ R : Node → Node → Prop,
    (∀ m₁ m₂, R m₁ m₂ → Same h₁ h₂ m₁ m₂ ∨ ListVaries h₁ h₂ R m₁ m₂) ∧ R n₁ n₂

end Heap

theorem ArgsVary.mono {S R R' : Node → Node → Prop} (H : ArgsVary S R form xs ys)
    (hR : ∀ n₁ n₂, R n₁ n₂ → R' n₁ n₂) : ArgsVary S R' form xs ys := by
  cases H with
  | same h => exact .same h
  | literal h₁ h₂ h => exact .literal h₁ h₂ h
  | branches hcond h => exact .branches hcond (h.imp hR)
  | body hvar hword hexpr h => exact .body hvar hword hexpr (h.imp hR)
  | attributes h => exact .attributes (h.imp hR)
  | children h => exact .children (h.imp hR)

namespace Heap
variable {h₁ h₂ : Heap} {n₁ n₂ : Node}

theorem ListVaries.mono {R R' : Node → Node → Prop} (H : ListVaries h₁ h₂ R n₁ n₂)
    (hR : ∀ n₁ n₂, R n₁ n₂ → R' n₁ n₂) : ListVaries h₁ h₂ R' n₁ n₂ := by
  cases H with
  | array hhead hargs => exact .array hhead (hargs.mono hR)
  | chain hi hj hhead hargs => exact .chain hi hj hhead (hargs.mono hR)
  | endless hi hj hhead => exact .endless hi hj hhead

theorem Varies.of_same (H : Same h₁ h₂ n₁ n₂) : Varies h₁ h₂ n₁ n₂ :=
  ⟨Same h₁ h₂, fun _ _ => .inl, H⟩

theorem Varies.of_list (H : ListVaries h₁ h₂ (Varies h₁ h₂) n₁ n₂) : Varies h₁ h₂ n₁ n₂ := by
  refine ⟨fun m₁ m₂ => Same h₁ h₂ m₁ m₂ ∨ ListVaries h₁ h₂ (Varies h₁ h₂) m₁ m₂, ?_, .inr H⟩
  rintro m₁ m₂ (hsame | hlist)
  · exact .inl hsame
  · refine .inr (hlist.mono ?_)
    rintro k₁ k₂ ⟨R, hR, hk⟩
    exact (hR k₁ k₂ hk).imp_right fun h => h.mono fun l₁ l₂ hl => ⟨R, hR, hl⟩

end Heap

/-! ## Outlines -/

/-- Whether a text is empty, and its marks. -/
def outline (text : String) : Bool × List Char := (text.isEmpty, marks text)

theorem outline_append (s t : String) : outline (s ++ t) =
    ((outline s).1 && (outline t).1, (outline s).2 ++ (outline t).2) := by
  have hempty : (s ++ t).isEmpty = (s.isEmpty && t.isEmpty) := by
    rw [Bool.eq_iff_iff, Bool.and_eq_true]
    simp only [String.isEmpty_iff, String.append_eq_empty_iff]
  simp only [outline, hempty, marks, String.toList_append, filter_append]

theorem outline_join {ss ts : List String} (H : ss.map outline = ts.map outline) :
    outline (String.join ss) = outline (String.join ts) := by
  induction ss generalizing ts with
  | nil =>
    rw [map_nil, eq_comm, map_eq_nil_iff] at H
    rw [H]
  | cons s ss ih =>
    obtain ⟨t, ts, rfl, hs, hss⟩ := map_eq_cons_iff.1 H.symm
    rw [String.join_cons, String.join_cons, outline_append, outline_append, hs, ih hss.symm]

theorem outline_intercalate {ss ts : List String} (sep : String)
    (H : ss.map outline = ts.map outline) :
    outline (sep.intercalate ss) = outline (sep.intercalate ts) := by
  induction ss generalizing ts with
  | nil =>
    rw [map_nil, eq_comm, map_eq_nil_iff] at H
    rw [H]
  | cons s ss ih =>
    obtain ⟨t, ts, rfl, hs, hss⟩ := map_eq_cons_iff.1 H.symm
    have ih := ih hss.symm
    cases ss with
    | nil =>
      rw [map_nil, map_eq_nil_iff] at hss
      rw [hss, String.intercalate_singleton, String.intercalate_singleton, hs]
    | cons s' ss =>
      obtain ⟨t', ts, rfl, -, -⟩ := map_eq_cons_iff.1 hss
      simp only [String.intercalate_cons_cons, outline_append, hs, ih]

/-- An entity has no marks. -/
theorem filter_isMark_entity (c : Char) : (entity c).filter isMark = [] := by
  unfold entity
  split
  · decide
  · decide
  · decide
  · decide
  · decide
  · simp_all [isMark]

theorem entity_ne_nil (c : Char) : entity c ≠ [] := by
  unfold entity
  split <;> simp

theorem outline_escapeHtml {text : String} (H : text ≠ "") :
    outline (escapeHtml text) = (false, []) := by
  have hmarks : marks (escapeHtml text) = [] := by
    rw [marks, escapeHtml, String.toList_ofList, filter_flatMap]
    simp only [filter_isMark_entity, flatMap_eq_nil_iff, implies_true]
  have hempty : (escapeHtml text).isEmpty = false := by
    rw [String.isEmpty_eq_false_iff]
    intro h
    obtain ⟨c, cs, hc⟩ := exists_cons_of_ne_nil (mt String.toList_eq_nil_iff.1 H)
    have h := congrArg String.toList h
    rw [escapeHtml, String.toList_ofList, hc, flatMap_cons] at h
    exact entity_ne_nil c (append_eq_nil_iff.1 h).1
  rw [outline, hempty, hmarks]

namespace Markup
variable {h₁ h₂ : Heap} {R : Node → Node → Prop}
  {render₁ render₂ : Node → Except StructureError String}
  (hr : ∀ n₁ n₂, R n₁ n₂ → outline <$> render₁ n₁ = outline <$> render₂ n₂)
include hr

theorem outline_concat (H : Forall₂ R xs ys) :
    outline <$> concat render₁ xs = outline <$> concat render₂ ys :=
  map_map_congr (map_mapM_congr H hr) fun _ _ => outline_join

theorem outline_conditional (hcond : h₁.stringOf cond₁ = h₂.stringOf cond₂) (H : Forall₂ R xs ys) :
    outline <$> conditional h₁ render₁ (cond₁ :: xs) =
      outline <$> conditional h₂ render₂ (cond₂ :: ys) := by
  rcases H with _ | ⟨hyes, _ | ⟨hno, _⟩⟩
  · simp only [conditional, hcond]
  · refine map_bind_congr (hr _ _ hyes) fun yes₁ yes₂ hyes => ?_
    simp only [map_pure, outline_append, hcond, hyes]
  · refine map_bind_congr (hr _ _ hyes) fun yes₁ yes₂ hyes => ?_
    refine map_bind_congr (hr _ _ hno) fun no₁ no₂ hno => ?_
    simp only [map_pure, outline_append, hcond, hyes, hno]

theorem outline_loop (hvar : h₁.stringOf var₁ = h₂.stringOf var₂)
    (hexpr : h₁.stringOf expr₁ = h₂.stringOf expr₂) (H : Forall₂ R xs ys) :
    outline <$> loop h₁ render₁ (var₁ :: word₁ :: expr₁ :: xs) =
      outline <$> loop h₂ render₂ (var₂ :: word₂ :: expr₂ :: ys) := by
  refine map_bind_congr (outline_concat hr H) fun body₁ body₂ hbody => ?_
  simp only [map_pure, outline_append, hvar, hexpr, hbody]

theorem outline_attributeTexts (H : Forall₂ R xs ys) {seen₁ seen₂ : List String}
    (hseen : seen₁.map outline = seen₂.map outline) :
    List.map outline <$> attributeTexts render₁ xs seen₁ =
      List.map outline <$> attributeTexts render₂ ys seen₂ := by
  rcases H with _ | ⟨hkey, _ | ⟨hvalue, H⟩⟩
  · simp [attributeTexts, map_reverse, hseen]
  · simp [attributeTexts, map_reverse, hseen]
  · refine map_bind_congr (hr _ _ hkey) fun key₁ key₂ hkey => ?_
    refine map_bind_congr (hr _ _ hvalue) fun value₁ value₂ hvalue => ?_
    refine outline_attributeTexts H ?_
    simp only [map_cons, outline_append, hkey, hvalue, hseen]
termination_by xs.length

theorem outline_attributes (H : Forall₂ R xs ys) :
    outline <$> attributes render₁ xs = outline <$> attributes render₂ ys :=
  map_map_congr (outline_attributeTexts hr H rfl) fun _ _ => outline_intercalate " "

/-- An element with its attributes: whether its content is empty is seen in the outline. -/
theorem outline_content (tag : String) (hattrs : outline attrs₁ = outline attrs₂)
    (H : Forall₂ R xs ys) :
    let close (attrs content : String) : Except StructureError String :=
      if content.isEmpty && isVoid tag then pure ("<" ++ tag ++ attrs ++ " />")
      else pure ("<" ++ tag ++ attrs ++ ">" ++ content ++ "</" ++ tag ++ ">")
    outline <$> (concat render₁ xs >>= close attrs₁) =
      outline <$> (concat render₂ ys >>= close attrs₂) := by
  refine map_bind_congr (outline_concat hr H) fun content₁ content₂ hcontent => ?_
  have hempty : content₁.isEmpty = content₂.isEmpty := congrArg Prod.fst hcontent
  simp only [hempty]
  split
  · simp only [map_pure, outline_append, hattrs]
  · simp only [map_pure, outline_append, hattrs, hcontent]

theorem outline_element (hattr : ∀ n₁ n₂, R n₁ n₂ → isAttributeList h₁ n₁ = isAttributeList h₂ n₂)
    (tag : String) (H : Forall₂ R xs ys) :
    outline <$> element h₁ render₁ tag xs = outline <$> element h₂ render₂ tag ys := by
  cases H with
  | nil => rfl
  | cons hfirst hrest =>
    simp only [element, splitAttributes, hattr _ _ hfirst]
    split
    · simp only [bind_assoc, pure_bind]
      refine map_bind_congr (hr _ _ hfirst) fun attrs₁ attrs₂ hattrs => ?_
      refine outline_content hr tag ?_ hrest
      rw [outline_append, outline_append, hattrs]
    · exact outline_content hr tag rfl (.cons hfirst hrest)

end Markup

theorem ArgsVary.length_eq {S R : Node → Node → Prop} (H : ArgsVary S R form xs ys) :
    xs.length = ys.length := by
  cases H with
  | same h | attributes h | children h => exact h.length_eq
  | literal _ _ h | branches _ h | body _ _ _ h => simp only [length_cons, h.length_eq]

namespace Heap
variable {h₁ h₂ : Heap} {n₁ n₂ : Node} {R : Node → Node → Prop} {levels : Nat}

theorem ListVaries.isList (H : ListVaries h₁ h₂ R n₁ n₂) : n₁.isList ∧ n₂.isList := by
  cases H <;> exact ⟨rfl, rfl⟩

theorem ListVaries.isAttributeList_eq (H : ListVaries h₁ h₂ R n₁ n₂) :
    Markup.isAttributeList h₁ n₁ = Markup.isAttributeList h₂ n₂ := by
  cases H with
  | array hhead => simp only [Markup.isAttributeList, headOf, head?_cons, hhead.stringOf_eq]
  | endless _ _ hhead => simp only [Markup.isAttributeList, headOf, hhead.stringOf_eq]
  | chain hi hj hhead =>
    cases hi
    cases hj
    simp only [Markup.isAttributeList, headOf, hhead.stringOf_eq]

/-- The items of a list are walked, or cannot be walked, alike. -/
theorem ListVaries.sequence (H : ListVaries h₁ h₂ R n₁ n₂) :
    (∃ e, h₁.sequence n₁ = .error e ∧ h₂.sequence n₂ = .error e) ∨
      ∃ head₁ args₁ head₂ args₂, h₁.sequence n₁ = .ok (head₁ :: args₁) ∧
        h₂.sequence n₂ = .ok (head₂ :: args₂) ∧ Same h₁ h₂ head₁ head₂ ∧
        ArgsVary (Same h₁ h₂) R (.ofHead (h₁.stringOf head₁)) args₁ args₂ := by
  cases H with
  | array hhead hargs => exact .inr ⟨_, _, _, _, rfl, rfl, hhead, hargs⟩
  | endless hi hj => exact .inl ⟨_, hi.sequence_eq, hj.sequence_eq⟩
  | chain hi hj hhead hargs =>
    rw [hi.sequence_eq, hj.sequence_eq, length_cons, length_cons, hargs.length_eq]
    split
    · exact .inr ⟨_, _, _, _, rfl, rfl, hhead, hargs⟩
    · exact .inl ⟨_, rfl, rfl⟩

theorem outline_form
    (hr : ∀ n₁ n₂, R n₁ n₂ → outline <$> h₁.markupAt levels n₁ = outline <$> h₂.markupAt levels n₂)
    (hattr : ∀ n₁ n₂, R n₁ n₂ → Markup.isAttributeList h₁ n₁ = Markup.isAttributeList h₂ n₂)
    (hhead : Same h₁ h₂ head₁ head₂)
    (hargs : ArgsVary (Same h₁ h₂) R (.ofHead (h₁.stringOf head₁)) args₁ args₂) :
    outline <$> Markup.form h₁ (h₁.markupAt levels) (head₁ :: args₁) =
      outline <$> Markup.form h₂ (h₂.markupAt levels) (head₂ :: args₂) := by
  generalize hform : Form.ofHead (h₁.stringOf head₁) = form at hargs
  have hform' : Form.ofHead (h₂.stringOf head₂) = form := hhead.stringOf_eq ▸ hform
  cases hargs with
  | same hargs =>
    rw [(same_simulation h₁ h₂).form_eq (fun _ _ => (same_simulation h₁ h₂).markupAt_eq levels)
      (.cons hhead hargs)]
  | literal ht₁ ht₂ =>
    simp only [Markup.form, hform, hform', Markup.escaped, Node.string, Except.map_ok,
      outline_escapeHtml ht₁, outline_escapeHtml ht₂]
  | branches hcond H =>
    simp only [Markup.form, hform, hform']
    exact Markup.outline_conditional hr hcond.stringOf_eq H
  | body hvar _ hexpr H =>
    simp only [Markup.form, hform, hform']
    exact Markup.outline_loop hr hvar.stringOf_eq hexpr.stringOf_eq H
  | attributes H =>
    simp only [Markup.form, hform, hform']
    exact Markup.outline_attributes hr H
  | children H =>
    simp only [Markup.form, hform', hhead.stringOf_eq]
    exact Markup.outline_element hr hattr _ H

theorem outline_markupAt
    (hR : ∀ m₁ m₂, R m₁ m₂ → Same h₁ h₂ m₁ m₂ ∨ ListVaries h₁ h₂ R m₁ m₂) (levels : Nat)
    (H : R n₁ n₂) : outline <$> h₁.markupAt levels n₁ = outline <$> h₂.markupAt levels n₂ := by
  have hattr (m₁ m₂ : Node) (hm : R m₁ m₂) :
      Markup.isAttributeList h₁ m₁ = Markup.isAttributeList h₂ m₂ := by
    rcases hR m₁ m₂ hm with hsame | hlist
    · rw [Markup.isAttributeList_eq, Markup.isAttributeList_eq, (same_simulation h₁ h₂).head hsame]
    · exact hlist.isAttributeList_eq
  induction levels generalizing n₁ n₂ with
  | zero => rfl
  | succ levels ih =>
    rcases hR n₁ n₂ H with hsame | hlist
    · rw [(same_simulation h₁ h₂).markupAt_eq _ hsame]
    · rw [h₁.markupAt_of_isList levels hlist.isList.1, h₂.markupAt_of_isList levels hlist.isList.2]
      obtain ⟨e, he₁, he₂⟩ | ⟨head₁, args₁, head₂, args₂, hs₁, hs₂, hhead, hargs⟩ := hlist.sequence
      · rw [he₁, he₂, error_bind, error_bind]
      · rw [hs₁, hs₂]
        exact outline_form (fun _ _ => ih) hattr hhead hargs

/-- Templates that differ only in rendered literals, none of them empty, fail with the same error,
or have markup with the same tags and attribute values as far as `<`, `>`, `"` and `'` tell. -/
theorem marks_markup_eq (H : Varies h₁ h₂ n₁ n₂) :
    (∃ e, h₁.markup n₁ = .error e ∧ h₂.markup n₂ = .error e) ∨
      ∃ text₁ text₂, h₁.markup n₁ = .ok text₁ ∧ h₂.markup n₂ = .ok text₂ ∧
        marks text₁ = marks text₂ := by
  obtain ⟨R, hR, hn⟩ := H
  have houtline : outline <$> h₁.markup n₁ = outline <$> h₂.markup n₂ := by
    rw [markup, markup, outline_markupAt hR _ hn]
  obtain he | ⟨text₁, text₂, h₁, h₂, houtline⟩ := map_eq_map_cases houtline
  · exact .inl he
  · exact .inr ⟨text₁, text₂, h₁, h₂, congrArg Prod.snd houtline⟩

/-- A literal in an attribute and one in a branch, replaced by texts that are full of marks. -/
theorem marks_markup_eq_attribute :
    let template (title body : String) : Node :=
      .list [.symbol "p", .list [.symbol "@", .symbol "title", .list [.symbol "$", .string title]],
        .list [.symbol "if", .symbol "c", .list [.symbol "$", .string body]]]
    let n₁ := template "a" "b"
    let n₂ := template "\" onclick=\"f()" "</p><b>'"
    Varies empty empty n₁ n₂ ∧ ∃ text₁ text₂, empty.markup n₁ = .ok text₁ ∧
      empty.markup n₂ = .ok text₂ ∧ marks text₁ = marks text₂ := by
  intro template n₁ n₂
  have hsame (n : Node) : Same empty empty n n := .refl empty n
  have hliteral {text₁ text₂ : String} (h₁ : text₁ ≠ "") (h₂ : text₂ ≠ "") :
      Varies empty empty (.list [.symbol "$", .string text₁])
        (.list [.symbol "$", .string text₂]) :=
    .of_list (.array (hsame _) (.literal h₁ h₂ .nil))
  have H : Varies empty empty n₁ n₂ := by
    refine .of_list (.array (hsame _) (.children (.cons ?_ (.cons ?_ .nil))))
    · exact .of_list (.array (hsame _) (.attributes
        (.cons (.of_same (hsame _)) (.cons (hliteral (by decide) (by decide)) .nil))))
    · exact .of_list (.array (hsame _) (.branches (hsame _)
        (.cons (hliteral (by decide) (by decide)) .nil)))
  refine ⟨H, (marks_markup_eq H).resolve_left ?_⟩
  rintro ⟨e, he, -⟩
  cases he

end Heap
end ListPress
