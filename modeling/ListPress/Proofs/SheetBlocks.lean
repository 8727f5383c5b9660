import ListPress.Proofs.Chains
import ListPress.Style

/-! # Reading a style sheet back

A style sheet is read line by line with a stack of open blocks (`Sheet.read`). A line that ends in
an opening brace opens a block, a closing brace alone closes the innermost one, and any other line
is a declaration; the indentation of each line is checked. From the text pressed out of some rules
this reader recovers the blocks and declarations of the rules, which `Sheet.Rule` describes from the
nodes alone (`Heap.read_style`). -/

namespace ListPress
open List

namespace Sheet

/-- What stands in a style sheet: a declaration without its semicolon, or a block with a header. -/
inductive Item where
  | declaration (text : String)
  | block (header : String) (items : List Item)

/-! ## The reader -/

/-- The lines of a text, each ended by a line feed. -/
def lines : List Char → Option (List (List Char))
  | [] => some []
  | c :: cs => do
    let rest ← lines cs
    if c = '\n' then some ([] :: rest) else
    match rest with
    | [] => none
    | line :: rest => some ((c :: line) :: rest)

/-- Two spaces for every open block. -/
def indentation (depth : Nat) : List Char := replicate (2 * depth) ' '

/-- The open blocks, the innermost first, each with its header and the items in front of it, and the
items of the innermost block so far. Items are last first. -/
structure Reader where
  opened : List (String × List Item)
  items : List Item

namespace Reader

def push (reader : Reader) (item : Item) : Reader :=
  { reader with items := item :: reader.items }

/-- A line that opens a block or is a declaration, without its indentation. -/
def content (reader : Reader) (text : List Char) : Option Reader :=
  match [' ', '\x7b'].isSuffixOf? text with
  | some header => some ⟨(.ofList header, reader.items) :: reader.opened, []⟩
  | none => (reader.push <| .declaration <| .ofList ·) <$> [';'].isSuffixOf? text

def line (reader : Reader) (line : List Char) : Option Reader :=
  match reader.opened with
  | [] => reader.content line
  | (header, before) :: outer =>
    if line = indentation outer.length ++ ['\x7d'] then
      some ⟨outer, .block header reader.items.reverse :: before⟩
    else
      (indentation reader.opened.length).isPrefixOf? line >>= reader.content

def text (reader : Reader) (cs : List Char) : Option Reader := do
  (← lines cs).foldlM line reader

end Reader

/-- The items of a style sheet, if its blocks are balanced. -/
def read (css : String) : Option (List Item) := do
  let reader ← Reader.text ⟨[], []⟩ css.toList
  if reader.opened.isEmpty then some reader.items.reverse else none

/-! ## What it reads -/

mutual
/-- The text of an item. -/
def Item.write (indent : String) : Item → String
  | .declaration text => indent ++ text ++ ";\n"
  | .block header items => Style.block indent header (write (indent ++ Style.indentStep) items)

def write (indent : String) : List Item → String
  | [] => ""
  | item :: items => item.write indent ++ write indent items
end

/-- No text of the item has a line feed. -/
inductive Item.Unbroken : Item → Prop
  | declaration : '\n' ∉ text.toList → Unbroken (.declaration text)
  | block : '\n' ∉ header.toList → (∀ item ∈ items, Unbroken item) →
      Unbroken (.block header items)

theorem write_append (indent : String) (items rest : List Item) :
    write indent (items ++ rest) = write indent items ++ write indent rest := by
  induction items with
  | nil => simp [write]
  | cons item items ih => simp only [cons_append, write, ih, String.append_assoc]

theorem write_singleton (indent : String) (item : Item) :
    write indent [item] = item.write indent := by
  simp [write]

theorem Item.toList_write_declaration (indent text : String) (cs : List Char) :
    ((Item.declaration text).write indent).toList ++ cs =
      indent.toList ++ (text.toList ++ [';']) ++ '\n' :: cs := by
  simp [write]

theorem Item.toList_write_block (indent header : String) (items : List Item) (cs : List Char) :
    ((Item.block header items).write indent).toList ++ cs =
      indent.toList ++ (header.toList ++ [' ', '\x7b']) ++ '\n' ::
        ((Sheet.write (indent ++ Style.indentStep) items).toList ++
          (indent.toList ++ ['\x7d'] ++ '\n' :: cs)) := by
  simp [write, Style.block]

theorem lines_append {line : List Char} (H : '\n' ∉ line) (cs : List Char) :
    lines (line ++ '\n' :: cs) = (line :: ·) <$> lines cs := by
  induction line with
  | nil => cases h : lines cs <;> simp [lines, h]
  | cons c line ih =>
    obtain ⟨hc, hline⟩ := not_or.1 (mem_cons.not.1 H)
    rw [cons_append, lines, ih hline]
    cases h : lines cs <;> simp [Ne.symm hc]

theorem Reader.text_append {line : List Char} (H : '\n' ∉ line) (reader : Reader)
    (cs : List Char) : reader.text (line ++ '\n' :: cs) = reader.line line >>= (·.text cs) := by
  rw [text, lines_append H]
  cases h : lines cs <;> simp [text, h]

/-! ## Reading what was written -/

theorem Reader.line_indented (reader : Reader) (text : List Char) {c : Char} (hc : c ≠ '\x7d') :
    reader.line (indentation reader.opened.length ++ (text ++ [c])) =
      reader.content (text ++ [c]) := by
  obtain ⟨_ | ⟨⟨header, before⟩, outer⟩, items⟩ := reader
  · rfl
  · have hclosing : indentation (outer.length + 1) ++ (text ++ [c]) ≠
        indentation outer.length ++ ['\x7d'] := by
      rw [← append_assoc]
      exact fun heq => hc (singleton_inj.1 (append_inj' heq rfl).2)
    simp only [line, length_cons, if_neg hclosing, isPrefixOf?_eq_some_iff_append_eq.2 rfl]
    rfl

theorem Reader.line_closing (outer : List (String × List Item)) (header : String)
    (before items : List Item) :
    Reader.line ⟨(header, before) :: outer, items⟩ (indentation outer.length ++ ['\x7d']) =
      some ⟨outer, .block header items.reverse :: before⟩ :=
  if_pos rfl

theorem Reader.content_opening (reader : Reader) (header : String) :
    reader.content (header.toList ++ [' ', '\x7b']) =
      some ⟨(header, reader.items) :: reader.opened, []⟩ := by
  simp only [content, isSuffixOf?_eq_some_iff_append_eq.2 rfl, String.ofList_toList]

theorem Reader.content_declaration (reader : Reader) (text : String) :
    reader.content (text.toList ++ [';']) = some (reader.push (.declaration text)) := by
  have hopening : [' ', '\x7b'].isSuffixOf? (text.toList ++ [';']) = none := by
    rw [Option.eq_none_iff_forall_ne_some]
    intro header heq
    have heq := isSuffixOf?_eq_some_iff_append_eq.1 heq
    rw [append_cons] at heq
    exact absurd (singleton_inj.1 (append_inj' heq rfl).2) (by decide)
  simp only [content, hopening, isSuffixOf?_eq_some_iff_append_eq.2 rfl, Option.map_eq_map,
    Option.map_some, String.ofList_toList]

/-- In front of any text and inside any blocks, the reader takes in the text of the item. -/
def Item.Reads (item : Item) : Prop :=
  ∀ {reader : Reader} {indent : String} (cs : List Char),
    indent.toList = indentation reader.opened.length →
      reader.text ((item.write indent).toList ++ cs) = (reader.push item).text cs

theorem Reader.text_write (reader : Reader) {items : List Item} (H : ∀ item ∈ items, item.Reads)
    (cs : List Char) (hindent : indent.toList = indentation reader.opened.length) :
    reader.text ((write indent items).toList ++ cs) =
      Reader.text ⟨reader.opened, items.reverse ++ reader.items⟩ cs := by
  induction items generalizing reader with
  | nil => simp [write]
  | cons item items ih =>
    obtain ⟨hitem, hitems⟩ := forall_mem_cons.1 H
    rw [write, String.toList_append, append_assoc, hitem _ hindent,
      ih (reader.push item) hitems hindent, push, reverse_cons, append_assoc, singleton_append]

/-- A line of an item, indented as it should be, is one line of the text. -/
theorem Reader.text_line {reader : Reader} {depth : Nat} {indent : String}
    (hindent : indent.toList = indentation depth) {line : List Char} (hline : '\n' ∉ line)
    (cs : List Char) : reader.text (indent.toList ++ line ++ '\n' :: cs) =
      reader.line (indentation depth ++ line) >>= (·.text cs) := by
  rw [hindent]
  apply text_append
  rw [mem_append, not_or]
  exact ⟨fun hmem => absurd (eq_of_mem_replicate hmem) (by decide), hline⟩

theorem Item.Unbroken.reads {item : Item} (H : item.Unbroken) : item.Reads := by
  induction H with
  | @declaration text htext =>
    intro reader indent cs hindent
    have hline : '\n' ∉ text.toList ++ [';'] := by simpa using htext
    rw [toList_write_declaration, Reader.text_line hindent hline,
      Reader.line_indented _ _ (by decide), Reader.content_declaration, Option.bind_eq_bind,
      Option.bind_some]
  | @block items header hheader _ ih =>
    intro reader indent cs hindent
    have hinner : (indent ++ Style.indentStep).toList = indentation (reader.opened.length + 1) := by
      rw [String.toList_append, hindent, indentation, indentation, Nat.mul_succ, replicate_add]
      rfl
    have hline : '\n' ∉ header.toList ++ [' ', '\x7b'] := by simpa using hheader
    rw [toList_write_block, Reader.text_line hindent hline, append_cons,
      Reader.line_indented _ _ (by decide), ← append_cons, Reader.content_opening,
      Option.bind_eq_bind, Option.bind_some,
      Reader.text_write _ ih _ hinner, Reader.text_line hindent (by decide), Reader.line_closing,
      Option.bind_eq_bind, Option.bind_some, append_nil, reverse_reverse]
    rfl

theorem read_write {items : List Item} (H : ∀ item ∈ items, item.Unbroken) :
    read (write "" items) = some items := by
  have htext := Reader.text_write ⟨[], []⟩ (fun item hitem => (H item hitem).reads) []
    (show "".toList = indentation 0 from rfl)
  rw [append_nil, append_nil] at htext
  rw [read, htext]
  simp [Reader.text, lines]

/-! ## The items of the rules -/

/-- Every node is a list, and what its items stand for follows what the nodes before it do. -/
inductive Each (h : Heap) (R : List Node → List Item → Prop) : List Node → List Item → Prop
  | nil : Each h R [] []
  | cons {n : Node} : h.Items n xs → R xs items → Each h R nodes rest →
      Each h R (n :: nodes) (items ++ rest)

section
variable (h : Heap) (vars : Bindings)

/-- A property with a name and a value is a declaration. -/
inductive Property : List Node → List Item → Prop
  | declaration : Property (name :: value :: rest)
      [.declaration (h.resolve vars name ++ ": " ++ h.resolve vars value)]
  | nameless : Property [] []
  | valueless : Property [name] []

inductive Frame : List Node → List Item → Prop
  | block : Each h (Property h vars) properties items →
      Frame (label :: properties) [.block (h.resolve vars label) items]
  | empty : Frame [] []

def kind (head : Node) : RuleKind := .ofHead (h.resolve vars head)

/-- A media rule needs a query and something to apply to, and an animation needs a name. -/
inductive Rule : List Node → List Item → Prop
  | selector {head : Node} : kind h vars head = .selector →
      Each h (Property h vars) properties items →
      Rule (head :: properties) [.block (h.resolve vars head) items]
  | media {head : Node} : kind h vars head = .media → rules ≠ [] → Each h Rule rules items →
      Rule (head :: query :: rules) [.block ("@media " ++ h.resolve vars query) items]
  | keyframes {head : Node} : kind h vars head = .keyframes → Each h (Frame h vars) frames items →
      Rule (head :: name :: frames) [.block ("@keyframes " ++ h.resolve vars name) items]
  | noQuery {head : Node} : kind h vars head = .media → Rule [head] []
  | noRules {head : Node} : kind h vars head = .media → Rule [head, query] []
  | noName {head : Node} : kind h vars head = .keyframes → Rule [head] []
  | empty : Rule [] []

end

/-! ## Rendering -/

/-- The text is that of the only items in the relation. -/
def Renders (indent css : String) (R : List Item → Prop) : Prop :=
  ∃ items, css = write indent items ∧ R items ∧ ∀ items', R items' → items' = items

namespace Renders

variable {h : Heap} {vars : Bindings} {nodes : List Node}

theorem each {R : List Node → List Item → Prop} {f : Node → Except ε String}
    (hf : ∀ {n css}, f n = .ok css → ∃ xs, h.Items n xs ∧ Renders indent css (R xs))
    (H : String.join <$> nodes.mapM f = .ok css) : Renders indent css (Each h R nodes) := by
  obtain ⟨texts, htexts, rfl⟩ := map_eq_ok_iff.1 H
  clear H
  replace htexts := mapM_eq_ok_iff.1 htexts
  induction htexts with
  | nil =>
    refine ⟨[], by simp [write], .nil, ?_⟩
    rintro items' ⟨⟩
    rfl
  | cons htext _ ih =>
    obtain ⟨xs, hxs, first, rfl, hfirst, hfirst'⟩ := hf htext
    obtain ⟨rest, hcss, hrest, hrest'⟩ := ih
    refine ⟨first ++ rest, ?_, .cons hxs hfirst hrest, ?_⟩
    · rw [String.join_cons, hcss, write_append]
    · rintro items' (_ | ⟨hxs', hR, hnodes⟩)
      cases hxs.unique hxs'
      rw [hfirst' _ hR, hrest' _ hnodes]

theorem block {R R' : List Item → Prop} {header : String}
    (hR : ∀ {items}, R items → R' [.block header items])
    (hR' : ∀ items', R' items' → ∃ items, R items ∧ items' = [.block header items])
    (H : Renders (indent ++ Style.indentStep) css R) :
    Renders indent (Style.block indent header css) R' := by
  obtain ⟨items, rfl, hitems, hunique⟩ := H
  refine ⟨[.block header items], by rw [write_singleton, Item.write], hR hitems, ?_⟩
  intro items' H
  obtain ⟨items₀, hitems₀, rfl⟩ := hR' items' H
  rw [hunique _ hitems₀]

theorem none {R : List Item → Prop} (hR : R []) (hR' : ∀ items', R items' → items' = []) :
    Renders indent "" R :=
  ⟨[], by rw [write], hR, hR'⟩

theorem property (H : Style.property h vars indent n = .ok css) :
    ∃ xs, h.Items n xs ∧ Renders indent css (Property h vars xs) := by
  obtain ⟨xs, hseq, hcss⟩ := bind_eq_ok_iff.1 H
  refine ⟨xs, Heap.items_of_sequence hseq, ?_⟩
  match xs, hcss with
  | name :: value :: rest, hcss =>
    cases hcss
    refine ⟨_, ?_, .declaration, ?_⟩
    · simp [write, Item.write, String.append_assoc]
    · rintro items' ⟨⟩
      rfl
  | [], hcss | [_], hcss =>
    cases hcss
    refine none (by constructor) ?_
    rintro items' ⟨⟩
    rfl

theorem properties (H : Style.properties h vars indent nodes = .ok css) :
    Renders indent css (Each h (Property h vars) nodes) :=
  each property H

theorem frame (H : Style.frame h vars indent n = .ok css) :
    ∃ xs, h.Items n xs ∧ Renders indent css (Frame h vars xs) := by
  obtain ⟨xs, hseq, hcss⟩ := bind_eq_ok_iff.1 H
  refine ⟨xs, Heap.items_of_sequence hseq, ?_⟩
  cases xs with
  | nil =>
    cases hcss
    refine none .empty ?_
    rintro items' ⟨⟩
    rfl
  | cons label nodes =>
    obtain ⟨body, hbody, rfl⟩ := map_eq_ok_iff.1 hcss
    refine block .block ?_ (properties hbody)
    rintro items' (⟨hitems⟩ | _)
    exact ⟨_, hitems, rfl⟩

section
variable {head : Node}

theorem selector (hkind : kind h vars head = .selector)
    (H : Style.properties h vars (indent ++ Style.indentStep) nodes = .ok body) :
    Renders indent (Style.block indent (h.resolve vars head) body)
      (Rule h vars (head :: nodes)) := by
  refine block (.selector hkind) (fun items' hrule => ?_) (properties H)
  cases hrule with
  | selector _ hitems => exact ⟨_, hitems, rfl⟩
  | media hkind' | keyframes hkind' | noQuery hkind' | noRules hkind' | noName hkind' =>
    cases hkind.symm.trans hkind'

theorem keyframes (hkind : kind h vars head = .keyframes)
    (H : Style.keyframes h vars indent nodes = .ok css) :
    Renders indent css (Rule h vars (head :: nodes)) := by
  cases nodes with
  | nil =>
    cases H
    refine none (.noName hkind) fun items' hrule => ?_
    cases hrule with
    | selector hkind' => cases hkind.symm.trans hkind'
    | noQuery | noName => rfl
  | cons name frames =>
    obtain ⟨texts, htexts, hcss⟩ := bind_eq_ok_iff.1 H
    cases hcss
    refine block (.keyframes hkind) (fun items' hrule => ?_)
      (each frame (map_eq_ok_iff.2 ⟨texts, htexts, rfl⟩))
    cases hrule with
    | keyframes _ hitems => exact ⟨_, hitems, rfl⟩
    | selector hkind' | media hkind' | noRules hkind' => cases hkind.symm.trans hkind'

variable {nested : List Node → Except StructureError String}
  (hnested : ∀ {nodes css}, nested nodes = .ok css →
    Renders (indent ++ Style.indentStep) css (Each h (Rule h vars) nodes))
include hnested

theorem media (hkind : kind h vars head = .media)
    (H : Style.media h vars nested indent nodes = .ok css) :
    Renders indent css (Rule h vars (head :: nodes)) := by
  match nodes, H with
  | query :: rule :: rules, H =>
    obtain ⟨body, hbody, rfl⟩ := map_eq_ok_iff.1 H
    refine block (.media hkind (cons_ne_nil _ _)) (fun items' hrule => ?_) (hnested hbody)
    cases hrule with
    | media _ _ hitems => exact ⟨_, hitems, rfl⟩
    | selector hkind' | keyframes hkind' => cases hkind.symm.trans hkind'
  | [query], H =>
    cases H
    refine none (.noRules hkind) fun items' hrule => ?_
    cases hrule with
    | media _ hne => exact absurd rfl hne
    | selector hkind' | keyframes hkind' => cases hkind.symm.trans hkind'
    | noRules => rfl
  | [], H =>
    cases H
    refine none (.noQuery hkind) fun items' hrule => ?_
    cases hrule with
    | selector hkind' => cases hkind.symm.trans hkind'
    | noQuery | noName => rfl

theorem rule (H : Style.rule h vars nested indent n = .ok css) :
    ∃ xs, h.Items n xs ∧ Renders indent css (Rule h vars xs) := by
  obtain ⟨xs, hseq, hcss⟩ := bind_eq_ok_iff.1 H
  refine ⟨xs, Heap.items_of_sequence hseq, ?_⟩
  cases xs with
  | nil =>
    cases hcss
    refine none .empty ?_
    rintro items' ⟨⟩
    rfl
  | cons head nodes =>
    dsimp only at hcss
    split at hcss
    · next hkind => exact media hnested hkind hcss
    · next hkind => exact keyframes hkind hcss
    · next hkind =>
      obtain ⟨body, hbody, rfl⟩ := map_eq_ok_iff.1 hcss
      exact selector hkind hbody

end

theorem rulesAt {levels : Nat} (H : Style.rulesAt h vars levels indent nodes = .ok css) :
    Renders indent css (Each h (Rule h vars) nodes) := by
  induction levels generalizing indent nodes css with
  | zero => cases H
  | succ levels ih => exact each (rule ih) H

end Renders
end Sheet

/-- The rules stand for one forest of items, and the style sheet pressed out of them is read back as
this forest if no text in it has a line feed. -/
theorem Heap.read_style {h : Heap} {vars : Bindings} {node : Node}
    (H : h.style vars node = .ok css) : ∃ rules forest, h.Items node rules ∧
      Sheet.Each h (Sheet.Rule h vars) rules forest ∧
      (∀ forest', Sheet.Each h (Sheet.Rule h vars) rules forest' → forest' = forest) ∧
      ((∀ item ∈ forest, item.Unbroken) → Sheet.read css = some forest) := by
  obtain ⟨rules, hseq, H⟩ := bind_eq_ok_iff.1 H
  obtain ⟨forest, rfl, hforest, hunique⟩ := Sheet.Renders.rulesAt H
  exact ⟨rules, forest, Heap.items_of_sequence hseq, hforest, hunique, Sheet.read_write⟩

/-- An animation, and a rule inside two media rules. -/
theorem Heap.read_style_nested :
    let vars : Bindings := fun name => if name = "main" then some "red" else none
    let color : Node := .list [.symbol "color", .symbol "var(main)"]
    let node : Node := .list [
      .list [.symbol "keyframes", .symbol "spin", .list [.symbol "to", color]],
      .list [.symbol "@media", .symbol "print", .list [.symbol "@", .symbol "wide",
        .list [.symbol "p", color, .list [.symbol "left-out"]]]]]
    let css := "@keyframes spin \x7b\n  to \x7b\n    color: red;\n  \x7d\n\x7d\n" ++
      "@media print \x7b\n  @media wide \x7b\n    p \x7b\n      color: red;\n" ++
      "    \x7d\n  \x7d\n\x7d\n"
    empty.style vars node = .ok css ∧ Sheet.read css = some [
      .block "@keyframes spin" [.block "to" [.declaration "color: red"]],
      .block "@media print" [.block "@media wide" [.block "p" [.declaration "color: red"]]]] := by
  intro vars color node css
  have hstyle : empty.style vars node = .ok css := by decide +kernel
  obtain ⟨rules, forest, hrules, -, hunique, hread⟩ := read_style hstyle
  cases hrules.unique .array
  have hkeyframes : Sheet.kind empty vars (.symbol "keyframes") = .keyframes := by decide +kernel
  have hmedia : Sheet.kind empty vars (.symbol "@media") = .media := by decide +kernel
  have hat : Sheet.kind empty vars (.symbol "@") = .media := by decide +kernel
  have hselector : Sheet.kind empty vars (.symbol "p") = .selector := by decide +kernel
  have hitems := hunique _ (.cons .array
    (.keyframes hkeyframes (.cons .array (.block (.cons .array .declaration .nil)) .nil))
    (.cons .array (.media hmedia (cons_ne_nil _ _)
      (.cons .array (.media hat (cons_ne_nil _ _)
        (.cons .array (.selector hselector
          (.cons .array .declaration (.cons .array .valueless .nil))) .nil)) .nil)) .nil))
  have hspin : "@keyframes " ++ empty.resolve vars (.symbol "spin") = "@keyframes spin" := by
    decide +kernel
  have hprint : "@media " ++ empty.resolve vars (.symbol "print") = "@media print" := by
    decide +kernel
  have hwide : "@media " ++ empty.resolve vars (.symbol "wide") = "@media wide" := by
    decide +kernel
  have hcolor : empty.resolve vars (.symbol "color") ++ ": " ++
      empty.resolve vars (.symbol "var(main)") = "color: red" := by
    decide +kernel
  have hto : empty.resolve vars (.symbol "to") = "to" := by decide +kernel
  have hp : empty.resolve vars (.symbol "p") = "p" := by decide +kernel
  rw [hspin, hprint, hwide, hcolor, hto, hp] at hitems
  subst hitems
  refine ⟨hstyle, hread (forall_mem_cons.2 ⟨?_, forall_mem_singleton.2 ?_⟩)⟩
  · exact .block (by decide) (forall_mem_singleton.2 (.block (by decide)
      (forall_mem_singleton.2 (.declaration (by decide)))))
  · exact .block (by decide) (forall_mem_singleton.2 (.block (by decide)
      (forall_mem_singleton.2 (.block (by decide)
        (forall_mem_singleton.2 (.declaration (by decide)))))))

end ListPress
