import ListPress.Proofs.LiteralStructure
import ListPress.Proofs.SheetBlocks

/-! # The indentation of style sheets

Rules can be rendered with an indentation. If no text in them has a line feed, this is the same as
rendering them without one and putting the indentation in front of every line (`indented`), and what
fails is the same in both cases. As the number of levels left does not matter either, once they
suffice, the body of a media rule is what its rules give on their own, indented
(`Style.rules_indented`). -/

namespace ListPress
open List

/-- The text with `indent` in front of every line; `start` says whether the text starts a line. -/
def indentLines (indent : List Char) : (start : Bool) → List Char → List Char
  | _, [] => []
  | start, c :: cs =>
    (if start then indent else []) ++ c :: indentLines indent (c = '\n') cs

def indented (indent text : String) : String :=
  .ofList (indentLines indent.toList true text.toList)

theorem indentLines_append {line : List Char} (H : '\n' ∉ line) (indent : List Char)
    (start : Bool) (cs : List Char) : indentLines indent start (line ++ '\n' :: cs) =
      (if start then indent else []) ++ line ++ '\n' :: indentLines indent true cs := by
  induction line generalizing start with
  | nil => simp [indentLines]
  | cons c line ih =>
    obtain ⟨hc, hline⟩ := not_or.1 (mem_cons.not.1 H)
    have hfalse : decide (c = '\n') = false := decide_eq_false (Ne.symm hc)
    rw [cons_append, indentLines, hfalse, ih hline]
    simp

namespace Sheet

/-- In front of any text, the lines of the item are indented. -/
def Item.Indents (item : Item) : Prop :=
  ∀ {inner : String} (indent : String) (cs : List Char), '\n' ∉ inner.toList →
    indentLines indent.toList true ((item.write inner).toList ++ cs) =
      (item.write (indent ++ inner)).toList ++ indentLines indent.toList true cs

theorem indentLines_write {items : List Item} (H : ∀ item ∈ items, item.Indents)
    {inner : String} (indent : String) (cs : List Char) (hinner : '\n' ∉ inner.toList) :
    indentLines indent.toList true ((write inner items).toList ++ cs) =
      (write (indent ++ inner) items).toList ++ indentLines indent.toList true cs := by
  induction items with
  | nil => simp [write]
  | cons item items ih =>
    obtain ⟨hitem, hitems⟩ := forall_mem_cons.1 H
    simp only [write, String.toList_append, append_assoc]
    rw [hitem indent _ hinner, ih hitems]

/-- A line of an item, which starts with the indentation of the item. -/
theorem indentLines_line {inner : String} (hinner : '\n' ∉ inner.toList) {line : List Char}
    (hline : '\n' ∉ line) (indent : String) (cs : List Char) :
    indentLines indent.toList true (inner.toList ++ line ++ '\n' :: cs) =
      (indent ++ inner).toList ++ line ++ '\n' :: indentLines indent.toList true cs := by
  have hmem : '\n' ∉ inner.toList ++ line := by
    rw [mem_append]
    exact not_or.2 ⟨hinner, hline⟩
  rw [indentLines_append hmem, if_pos rfl, String.toList_append, append_assoc _ inner.toList]

theorem Item.Unbroken.indents {item : Item} (H : item.Unbroken) : item.Indents := by
  induction H with
  | @declaration text htext =>
    intro inner indent cs hinner
    have hline : '\n' ∉ text.toList ++ [';'] := by simpa using htext
    rw [toList_write_declaration, toList_write_declaration, indentLines_line hinner hline]
  | @block items header hheader _ ih =>
    intro inner indent cs hinner
    have hline : '\n' ∉ header.toList ++ [' ', '\x7b'] := by simpa using hheader
    have hbody : '\n' ∉ (inner ++ Style.indentStep).toList := by
      simpa [Style.indentStep] using hinner
    rw [toList_write_block, toList_write_block, indentLines_line hinner hline,
      indentLines_write ih indent _ hbody, indentLines_line hinner (by simp), String.append_assoc]

theorem write_indented {items : List Item} (H : ∀ item ∈ items, item.Unbroken)
    (indent : String) : write indent items = indented indent (write "" items) := by
  have hwrite := indentLines_write (fun item hitem => (H item hitem).indents) indent []
    (show '\n' ∉ "".toList by simp)
  simp only [append_nil, String.append_empty, indentLines] at hwrite
  rw [indented, hwrite, String.ofList_toList]

/-- No text of the rules has a line feed. -/
def Unbroken (h : Heap) (vars : Bindings) (nodes : List Node) : Prop :=
  ∀ forest, Each h (Rule h vars) nodes forest → ∀ item ∈ forest, item.Unbroken

theorem unbroken_of_each {h : Heap} {vars : Bindings} {nodes : List Node} {forest : List Item}
    (H : Style.rulesAt h vars levels indent nodes = .ok css)
    (hforest : Each h (Rule h vars) nodes forest) (hitems : ∀ item ∈ forest, item.Unbroken) :
    Unbroken h vars nodes := by
  obtain ⟨_, -, -, hunique⟩ := Renders.rulesAt H
  intro forest' hforest'
  rwa [hunique _ hforest', ← hunique _ hforest]

end Sheet

namespace Style
variable {h : Heap} {vars : Bindings}

/-! ## Whether there is a text -/

section
variable (indent indent' : String)

theorem outcome_property (n : Node) :
    outcome (property h vars indent n) = outcome (property h vars indent' n) := by
  refine outcome_bind _ fun xs => ?_
  rcases xs with _ | ⟨name, _ | ⟨value, rest⟩⟩ <;> rfl

theorem outcome_properties (nodes : List Node) :
    outcome (properties h vars indent nodes) = outcome (properties h vars indent' nodes) :=
  outcome_map (outcome_mapM nodes (outcome_property indent indent')) _ _

theorem outcome_frame (n : Node) :
    outcome (frame h vars indent n) = outcome (frame h vars indent' n) := by
  refine outcome_bind _ fun xs => ?_
  cases xs with
  | nil => rfl
  | cons label nodes => exact outcome_map (outcome_properties _ _ nodes) _ _

theorem outcome_keyframes (args : List Node) :
    outcome (keyframes h vars indent args) = outcome (keyframes h vars indent' args) := by
  cases args with
  | nil => rfl
  | cons name frames => exact outcome_map (outcome_mapM frames (outcome_frame _ _)) _ _

theorem outcome_rule {nested nested' : List Node → Except StructureError String}
    (hnested : ∀ nodes, outcome (nested nodes) = outcome (nested' nodes)) (n : Node) :
    outcome (rule h vars nested indent n) = outcome (rule h vars nested' indent' n) := by
  refine outcome_bind _ fun xs => ?_
  cases xs with
  | nil => rfl
  | cons head args =>
    dsimp only
    split
    · rcases args with _ | ⟨query, _ | ⟨rule, rules⟩⟩
      · rfl
      · rfl
      · exact outcome_map (hnested (rule :: rules)) _ _
    · exact outcome_keyframes indent indent' args
    · exact outcome_map (outcome_properties _ _ args) _ _

/-- The indentation does not decide whether there is a text, nor what the error is. -/
theorem outcome_rulesAt (levels : Nat) (nodes : List Node) :
    outcome (rulesAt h vars levels indent nodes) =
      outcome (rulesAt h vars levels indent' nodes) := by
  induction levels generalizing indent indent' nodes with
  | zero => rfl
  | succ levels ih =>
    exact outcome_map (outcome_mapM nodes (outcome_rule indent indent' (ih _ _))) _ _

end

theorem rulesAt_indented {nodes : List Node} (H : Sheet.Unbroken h vars nodes) (levels : Nat)
    (indent : String) : rulesAt h vars levels indent nodes =
      indented indent <$> rulesAt h vars levels "" nodes := by
  obtain ⟨e, herror, herror'⟩ | ⟨css, css', hcss, hcss', -⟩ :=
    map_eq_map_cases (@outcome_rulesAt h vars indent "" levels nodes)
  · rw [herror, herror']
    rfl
  · -- The rules stand for one forest only, so both texts are written from the same items.
    obtain ⟨forest, rfl, hforest, -⟩ := Sheet.Renders.rulesAt hcss
    obtain ⟨forest', rfl, -, hunique⟩ := Sheet.Renders.rulesAt hcss'
    cases hunique forest hforest
    rw [hcss, hcss', Sheet.write_indented (H forest hforest)]
    rfl

/-! ## Levels -/

theorem rule_mono {nested nested' : List Node → Except StructureError String}
    (hnested : ∀ nodes css, nested nodes = .ok css → nested' nodes = .ok css)
    (H : rule h vars nested indent n = .ok css) : rule h vars nested' indent n = .ok css := by
  obtain ⟨xs, hseq, H⟩ := bind_eq_ok_iff.1 H
  refine bind_eq_ok_iff.2 ⟨xs, hseq, ?_⟩
  cases xs with
  | nil => exact H
  | cons head args =>
    dsimp only at H ⊢
    split at H
    · rcases args with _ | ⟨query, _ | ⟨rule, rules⟩⟩
      · exact H
      · exact H
      · obtain ⟨body, hbody, rfl⟩ := map_eq_ok_iff.1 H
        exact map_eq_ok_iff.2 ⟨body, hnested _ _ hbody, rfl⟩
    · exact H
    · exact H

theorem rulesAt_mono (hle : levels ≤ levels') (H : rulesAt h vars levels indent nodes = .ok css) :
    rulesAt h vars levels' indent nodes = .ok css := by
  induction levels generalizing indent nodes css levels' with
  | zero => cases H
  | succ levels ih =>
    obtain ⟨levels', rfl⟩ := Nat.exists_eq_succ_of_ne_zero (Nat.ne_zero_of_lt hle)
    obtain ⟨texts, htexts, rfl⟩ := map_eq_ok_iff.1 H
    refine map_eq_ok_iff.2 ⟨texts, mapM_eq_ok_iff.2 ?_, rfl⟩
    refine (mapM_eq_ok_iff.1 htexts).imp fun n text => ?_
    exact rule_mono fun _ _ => ih (Nat.le_of_succ_le_succ hle)

/-! ## Rules -/

theorem rulesAt_append (levels : Nat) (indent : String) (xs ys : List Node) :
    rulesAt h vars levels indent (xs ++ ys) = do
      return (← rulesAt h vars levels indent xs) ++ (← rulesAt h vars levels indent ys) := by
  cases levels with
  | zero => rfl
  | succ levels =>
    simp only [rulesAt, mapM_append, map_eq_pure_bind, bind_assoc, pure_bind, String.join_append]

theorem rulesAt_singleton (levels : Nat) (indent : String) (n : Node) :
    rulesAt h vars (levels + 1) indent [n] =
      rule h vars (rulesAt h vars levels (indent ++ indentStep)) indent n := by
  simp only [rulesAt, mapM_cons, mapM_nil, map_eq_pure_bind, bind_assoc, pure_bind,
    String.join_cons, String.join_nil, String.append_empty, bind_pure]

theorem rule_media (nested : List Node → Except StructureError String) {head : Node}
    (hseq : h.sequence n = .ok (head :: query :: first :: rest))
    (hkind : Sheet.kind h vars head = .media) : rule h vars nested indent n =
      block indent ("@media " ++ h.resolve vars query) <$> nested (first :: rest) := by
  rw [rule, hseq]
  simp only [Sheet.kind] at hkind
  simp only [bind, Except.bind, hkind, media]

/-- Rules are rendered independently of each other, and without line feeds in their texts the
indentation is put in front of every line. The body of a media rule at any depth, where
`maxNesting + 1 - depth` levels are left, is what its rules give on their own, indented. -/
theorem rules_indented (h : Heap) (vars : Bindings) (indent : String) :
    (∀ nodes, Sheet.Unbroken h vars nodes →
      rules h vars indent nodes = indented indent <$> rules h vars "" nodes) ∧
    (∀ xs ys, rules h vars indent (xs ++ ys) = do
      return (← rules h vars indent xs) ++ (← rules h vars indent ys)) ∧
    ∀ depth n head query first rest css, h.sequence n = .ok (head :: query :: first :: rest) →
      Sheet.kind h vars head = .media → Sheet.Unbroken h vars (first :: rest) →
      rulesAt h vars (maxNesting + 1 - depth) indent [n] = .ok css →
      ∃ text, rules h vars "" (first :: rest) = .ok text ∧
        css = block indent ("@media " ++ h.resolve vars query)
          (indented (indent ++ indentStep) text) := by
  refine ⟨fun nodes H => rulesAt_indented H _ indent, rulesAt_append _ indent, ?_⟩
  intro depth n head query first rest css hseq hkind hunbroken H
  cases hlevels : maxNesting + 1 - depth with
  | zero =>
    rw [hlevels] at H
    cases H
  | succ levels =>
    rw [hlevels, rulesAt_singleton, rule_media _ hseq hkind, rulesAt_indented hunbroken] at H
    obtain ⟨body, hbody, rfl⟩ := map_eq_ok_iff.1 H
    obtain ⟨text, htext, rfl⟩ := map_eq_ok_iff.1 hbody
    -- On their own, the nested rules have all levels left, and not one less than the media rule.
    have hle : levels ≤ maxNesting + 1 := by omega
    exact ⟨text, rulesAt_mono hle htext, rfl⟩

/-- A rule, and a media rule around it at depth 3. -/
theorem rules_indented_media :
    let vars : Bindings := ([("main", "red")].lookup ·)
    let p : Node := .list [.symbol "p", .list [.symbol "color", .symbol "var(main)"]]
    let wide : Node := .list [.symbol "@media", .symbol "wide", p]
    let text := "p \x7b\n  color: red;\n\x7d\n"
    let text' := "\tp \x7b\n\t  color: red;\n\t\x7d\n"
    rules .empty vars "" [p] = .ok text ∧ rules .empty vars "\t" [p] = .ok text' ∧
      rules .empty vars "\t" ([p] ++ [p]) = .ok (text' ++ text') ∧
      rulesAt .empty vars (maxNesting + 1 - 3) "\t" [wide] =
        .ok (block "\t" ("@media " ++ Heap.empty.resolve vars (.symbol "wide"))
          (indented ("\t" ++ indentStep) text)) := by
  intro vars p wide text text'
  obtain ⟨hindent, happend, hmedia⟩ := rules_indented .empty vars "\t"
  have htext : rules .empty vars "" [p] = .ok text := by decide +kernel
  have hselector : Sheet.kind .empty vars (.symbol "p") = .selector := by decide +kernel
  have hunbroken : Sheet.Unbroken .empty vars [p] := by
    refine Sheet.unbroken_of_each htext
      (.cons .array (.selector hselector (.cons .array .declaration .nil)) .nil) ?_
    exact forall_mem_singleton.2 (.block (by decide +kernel)
      (forall_mem_singleton.2 (.declaration (by decide +kernel))))
  have htext' : rules .empty vars "\t" [p] = .ok text' := by
    rw [hindent [p] hunbroken, htext]
    decide +kernel
  refine ⟨htext, htext', ?_, ?_⟩
  · rw [happend, htext']
    rfl
  · have hkind : Sheet.kind .empty vars (.symbol "@media") = .media := by decide +kernel
    have hwide : rulesAt .empty vars (maxNesting + 1 - 3) "\t" [wide] = .ok
        ("\t@media wide \x7b\n\t  p \x7b\n\t    color: red;\n\t  \x7d\n" ++ "\t\x7d\n") := by
      decide +kernel
    obtain ⟨_, hp, hbody⟩ := hmedia 3 wide _ _ _ _ _ rfl hkind hunbroken hwide
    cases htext.symm.trans hp
    rw [hwide, hbody]

end Style
end ListPress
