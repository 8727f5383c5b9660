import ListPress.Proofs.Composition
import ListPress.Proofs.RoundTrip
import ListPress.Proofs.TailReplacement

/-! # Scriptlets are balanced

Markup is text with scriptlets in it, each from `<%` to the next `%>`, and the scriptlets open and
close blocks with braces. When no text of a node has a percent sign or a brace of its own, all of
them in the markup come from its forms, and wherever the texts of the forms meet, no delimiter is
made or broken: the text is a sequence of characters and whole scriptlets (`Scriptlet.Scripted`). So
delimiters alternate and braces are nested inside scriptlets (`Heap.markup_balanced`). -/

namespace ListPress
open List

namespace Scriptlet

/-- The mark `<%` or the mark `%>`. -/
inductive Delimiter where
  | opening
  | closing

/-- The delimiter that starts with a character, seen from the next one. -/
def delimiter? (c : Char) (next : Option Char) : Option Delimiter :=
  if c = '<' ∧ next = some '%' then some .opening
  else if c = '%' ∧ next = some '>' then some .closing
  else none

/-- The delimiters in a text, in order. -/
def delimiters : List Char → List Delimiter
  | [] => []
  | c :: cs => (delimiter? c cs.head?).toList ++ delimiters cs

def IsBrace (c : Char) : Prop := c = '\x7b' ∨ c = '\x7d'

/-- The character is neither a percent sign nor a brace. -/
def IsPlain (c : Char) : Prop := c ≠ '%' ∧ ¬ IsBrace c

@[simp] theorem isBrace_iff : IsBrace c ↔ c = '\x7b' ∨ c = '\x7d' := Iff.rfl

@[simp] theorem isPlain_iff : IsPlain c ↔ c ≠ '%' ∧ ¬ IsBrace c := Iff.rfl

/-- What a scan from left to right finds in a text. -/
structure Balanced (cs : List Char) : Prop where
  alternate : ∃ k, delimiters cs = (replicate k [Delimiter.opening, .closing]).flatten
  /-- A brace stands after an opening delimiter, and the next one after it is closing. -/
  inside : ∀ before c after, cs = before ++ c :: after → IsBrace c →
    (delimiters before).getLast? = some .opening ∧ (delimiters after).head? = some .closing
  nested : ∀ before, before <+: cs → before.count '\x7d' ≤ before.count '\x7b'
  closed : cs.count '\x7d' = cs.count '\x7b'

/-! ## Braces -/

/-- With `a` braces open before the text, `b` are open after it, and none is closed in it that is
not open. -/
inductive Braces : Nat → Nat → List Char → Prop
  | nil : Braces a a []
  | opening : Braces (a + 1) b cs → Braces a b ('\x7b' :: cs)
  | closing : Braces a b cs → Braces (a + 1) b ('\x7d' :: cs)
  | other : ¬ IsBrace c → Braces a b cs → Braces a b (c :: cs)

theorem Braces.append (H : Braces a b cs) (H' : Braces b c cs') : Braces a c (cs ++ cs') := by
  induction H with
  | nil => exact H'
  | opening _ ih => exact .opening (ih H')
  | closing _ ih => exact .closing (ih H')
  | other hc _ ih => exact .other hc (ih H')

theorem braces_of_forall (H : ∀ c ∈ cs, ¬ IsBrace c) : Braces a a cs := by
  induction cs with
  | nil => exact .nil
  | cons c cs ih =>
    obtain ⟨hc, hcs⟩ := forall_mem_cons.1 H
    exact .other hc (ih hcs)

theorem Braces.count_eq (H : Braces a b cs) :
    a + cs.count '\x7b' = b + cs.count '\x7d' := by
  induction H with
  | nil => rfl
  | opening _ ih => simp; omega
  | closing _ ih => simp; omega
  | other hc _ ih =>
    obtain ⟨ho, hc⟩ := not_or.1 hc
    rwa [count_cons_of_ne ho, count_cons_of_ne hc]

theorem Braces.count_le (H : Braces a b cs) (hbefore : before <+: cs) :
    before.count '\x7d' ≤ a + before.count '\x7b' := by
  induction H generalizing before with
  | nil => simp [prefix_nil.1 hbefore]
  | opening _ ih | closing _ ih =>
    rcases prefix_cons_iff.1 hbefore with rfl | ⟨rest, rfl, hrest⟩
    · simp
    · have := ih hrest
      simp
      omega
  | other hc _ ih =>
    rcases prefix_cons_iff.1 hbefore with rfl | ⟨rest, rfl, hrest⟩
    · simp
    · obtain ⟨ho, hc⟩ := not_or.1 hc
      rw [count_cons_of_ne ho, count_cons_of_ne hc]
      exact ih hrest

/-! ## Characters and scriptlets -/

/-- A text of characters and scriptlets, with `a` braces open before it and `b` after it. The braces
stand in scriptlets, and a percent sign only where a scriptlet starts or ends. -/
inductive Scripted : Nat → Nat → List Char → Prop
  | nil : Scripted a a []
  | char : IsPlain c → Scripted a b cs → Scripted a b (c :: cs)
  | scriptlet : body.head? ≠ some '>' → '%' ∉ body → Braces a b body → Scripted b c cs →
    Scripted a c ('<' :: '%' :: (body ++ ' ' :: '%' :: '>' :: cs))

theorem Scripted.append (H : Scripted a b cs) (H' : Scripted b c cs') :
    Scripted a c (cs ++ cs') := by
  induction H with
  | nil => exact H'
  | char hc _ ih => exact .char hc (ih H')
  | scriptlet hhead hbody hbraces _ ih =>
    have := Scripted.scriptlet hhead hbody hbraces (ih H')
    simpa using this

theorem Scripted.braces (H : Scripted a b cs) : Braces a b cs := by
  induction H with
  | nil => exact .nil
  | char hc _ ih => exact .other hc.2 ih
  | scriptlet _ _ hbraces _ ih =>
    exact .other (by simp) <| .other (by simp) <| hbraces.append <|
      .other (by simp) <| .other (by simp) <| .other (by simp) ih

theorem Scripted.head_ne (H : Scripted a b cs) : cs.head? ≠ some '%' := by
  cases H with
  | nil => simp
  | char hc => simpa using hc.1
  | scriptlet => simp

theorem head?_append_ne {s t : List α} (hs : s.head? ≠ some c) (ht : t.head? ≠ some c) :
    (s ++ t).head? ≠ some c := by
  cases s with
  | nil => exact ht
  | cons => exact hs

theorem head?_ne_of_append {s t : List α} (H : (s ++ t).head? ≠ some c) : s.head? ≠ some c := by
  cases s with
  | nil => simp
  | cons => exact H

theorem head?_ne_of_not_mem {s : List α} (H : c ∉ s) : s.head? ≠ some c :=
  fun h => H (mem_of_mem_head? h)

theorem delimiters_cons_of_ne (hc : c ≠ '%') (hcs : cs.head? ≠ some '%') :
    delimiters (c :: cs) = delimiters cs := by
  simp [delimiters, delimiter?, hc, hcs]

theorem delimiters_of_not_mem (H : '%' ∉ cs) : delimiters cs = [] := by
  induction cs with
  | nil => rfl
  | cons c cs ih =>
    obtain ⟨hc, hcs⟩ := not_or.1 (mem_cons.not.1 H)
    rw [delimiters_cons_of_ne (Ne.symm hc) (head?_ne_of_not_mem hcs), ih hcs]

/-- The start of a scriptlet, up to any place in it. -/
theorem delimiters_start (H : cs.head? ≠ some '>') :
    delimiters ('<' :: '%' :: cs) = .opening :: delimiters cs := by
  simp [delimiters, delimiter?, H]

/-- The end of a scriptlet, from any place in it. -/
theorem delimiters_end (H : '%' ∉ body) (cs : List Char) :
    delimiters (body ++ ' ' :: '%' :: '>' :: cs) = .closing :: delimiters cs := by
  induction body with
  | nil => simp [delimiters, delimiter?]
  | cons c body ih =>
    obtain ⟨hc, hbody⟩ := not_or.1 (mem_cons.not.1 H)
    have hhead : (body ++ ' ' :: '%' :: '>' :: cs).head? ≠ some '%' :=
      head?_append_ne (head?_ne_of_not_mem hbody) (by simp)
    rw [cons_append, delimiters_cons_of_ne (Ne.symm hc) hhead, ih hbody]

theorem delimiters_scriptlet (hhead : body.head? ≠ some '>') (hbody : '%' ∉ body)
    (cs : List Char) : delimiters ('<' :: '%' :: (body ++ ' ' :: '%' :: '>' :: cs)) =
      .opening :: .closing :: delimiters cs := by
  rw [delimiters_start (head?_append_ne hhead (by simp)), delimiters_end hbody]

theorem Scripted.alternate (H : Scripted a b cs) :
    ∃ k, delimiters cs = (replicate k [Delimiter.opening, .closing]).flatten := by
  induction H with
  | nil => exact ⟨0, rfl⟩
  | char hc hcs ih => rwa [delimiters_cons_of_ne hc.1 hcs.head_ne]
  | scriptlet hhead hbody _ _ ih =>
    obtain ⟨k, hk⟩ := ih
    refine ⟨k + 1, ?_⟩
    rw [delimiters_scriptlet hhead hbody, hk]
    rfl

/-- A place in a text of two parts lies in one of them. -/
theorem append_eq_append_cons {s t before after : List α} (H : s ++ t = before ++ c :: after) :
    (∃ mid, s = before ++ c :: mid ∧ after = mid ++ t) ∨
      ∃ mid, before = s ++ mid ∧ t = mid ++ c :: after := by
  rcases append_eq_append_iff.1 H with ⟨mid, hbefore, ht⟩ | ⟨mid, hs, hmid⟩
  · exact .inr ⟨mid, hbefore, ht⟩
  · cases mid with
    | nil => exact .inr ⟨[], by simpa using hs.symm, by simpa using hmid.symm⟩
    | cons d mid =>
      obtain ⟨rfl, rfl⟩ := cons.inj hmid
      exact .inl ⟨mid, hs, rfl⟩

theorem Scripted.inside (H : Scripted a b cs) {before after : List Char}
    (hcs : cs = before ++ c :: after) (hc : IsBrace c) :
    (delimiters before).getLast? = some .opening ∧ (delimiters after).head? = some .closing := by
  have hmem {xs before ys : List Char} (hxs : ∀ d ∈ xs, ¬ IsBrace d) : xs ≠ before ++ c :: ys :=
    fun heq => hxs c (heq ▸ mem_append_cons_self) hc
  induction H generalizing before with
  | nil => simp at hcs
  | char hd hrest ih =>
    cases before with
    | nil =>
      cases hcs
      exact absurd hc hd.2
    | cons d before =>
      obtain ⟨rfl, rfl⟩ := cons.inj hcs
      rw [delimiters_cons_of_ne hd.1 (head?_ne_of_append hrest.head_ne)]
      exact ih rfl
  | @scriptlet body _ _ _ cs hhead hbody _ hrest ih =>
    -- The brace stands in the body or after the scriptlet: delimiters have none.
    rcases append_eq_append_cons (s := ['<', '%']) hcs with ⟨_, hmid, -⟩ | ⟨inner, rfl, hinner⟩
    · exact absurd hmid (hmem (by simp))
    rcases append_eq_append_cons (s := body) hinner with ⟨mid, rfl, rfl⟩ | ⟨later, rfl, hlater⟩
    · obtain ⟨hbefore, -, hafter⟩ := by simpa using hbody
      have hstart : delimiters (['<', '%'] ++ inner) = [.opening] := by
        rw [← delimiters_of_not_mem hbefore]
        exact delimiters_start (head?_ne_of_append hhead)
      rw [hstart, delimiters_end hafter]
      exact ⟨rfl, rfl⟩
    rcases append_eq_append_cons (s := [' ', '%', '>']) hlater with
      ⟨_, hmid, -⟩ | ⟨rest, rfl, hrest⟩
    · exact absurd hmid (hmem (by simp))
    · obtain ⟨hbefore, hafter⟩ := ih hrest
      refine ⟨?_, hafter⟩
      have hscriptlet : delimiters (['<', '%'] ++ (body ++ ([' ', '%', '>'] ++ rest))) =
          .opening :: .closing :: delimiters rest := delimiters_scriptlet hhead hbody rest
      rw [hscriptlet, getLast?_cons, getLast?_cons, hbefore]
      rfl

theorem Scripted.balanced (H : Scripted 0 0 cs) : Balanced cs where
  alternate := H.alternate
  inside _ _ _ hcs hc := H.inside hcs hc
  nested before hbefore := by simpa using H.braces.count_le hbefore
  closed := by simpa using H.braces.count_eq.symm

/-! ## Texts without percent signs and braces -/

/-- The text has no percent sign and no brace. -/
def Plain (text : String) : Prop := ∀ c ∈ text.toList, IsPlain c

/-- A text of characters and scriptlets that closes the blocks that it opens, and no others. -/
def Closed (text : String) : Prop := ∀ a, Scripted a a text.toList

theorem scripted_of_forall (H : ∀ c ∈ cs, IsPlain c) : Scripted a a cs := by
  induction cs with
  | nil => exact .nil
  | cons c cs ih =>
    obtain ⟨hc, hcs⟩ := forall_mem_cons.1 H
    exact .char hc (ih hcs)

theorem Plain.closed (H : Plain text) : Closed text := fun _ => scripted_of_forall H

theorem Plain.append (hs : Plain s) (ht : Plain t) : Plain (s ++ t) := by
  rw [Plain, String.toList_append]
  exact forall_mem_append.2 ⟨hs, ht⟩

theorem Closed.append (hs : Closed s) (ht : Closed t) : Closed (s ++ t) := by
  intro a
  rw [String.toList_append]
  exact (hs a).append (ht a)

/-- What holds of texts and of two texts put together holds of any number of them. -/
theorem of_join {P : String → Prop} (hempty : P "") (happend : ∀ {s t}, P s → P t → P (s ++ t))
    {texts : List String} (H : ∀ text ∈ texts, P text) : P (String.join texts) := by
  induction texts with
  | nil => exact hempty
  | cons text texts ih =>
    obtain ⟨htext, htexts⟩ := forall_mem_cons.1 H
    rw [String.join_cons]
    exact happend htext (ih htexts)

theorem of_intercalate {P : String → Prop} (hempty : P "")
    (happend : ∀ {s t}, P s → P t → P (s ++ t)) {sep : String} (hsep : P sep)
    {texts : List String} (H : ∀ text ∈ texts, P text) : P (sep.intercalate texts) := by
  induction texts with
  | nil => simpa using hempty
  | cons text texts ih =>
    obtain ⟨htext, htexts⟩ := forall_mem_cons.1 H
    cases texts with
    | nil => simpa using htext
    | cons next texts =>
      rw [String.intercalate_cons_cons]
      exact happend (happend htext hsep) (ih htexts)

theorem plain_empty : Plain "" := by simp [Plain]

theorem plain_space : Plain " " := by simp [Plain]

theorem plain_flatMap {f : Char → List Char}
    (hf : ∀ c, IsPlain c → ∀ d ∈ f c, IsPlain d) (H : Plain text) :
    ∀ d ∈ text.toList.flatMap f, IsPlain d := by
  intro d hd
  obtain ⟨c, hc, hd⟩ := mem_flatMap.1 hd
  exact hf c (H c hc) d hd

theorem Plain.escapeHtml (H : Plain text) : Plain (escapeHtml text) := by
  rw [Plain, ListPress.escapeHtml, String.toList_ofList]
  refine plain_flatMap (fun c hc => ?_) H
  unfold entity
  split <;> simp_all

theorem Plain.quoted (H : Plain text) : Plain (Atom.quoted text) := by
  have hchars := plain_flatMap (f := Atom.escapeChar) (fun c hc => by
    unfold Atom.escapeChar
    split <;> simp_all) H
  rw [Plain, Atom.quoted, String.toList_ofList]
  have hquote : ∀ c ∈ ['"'], IsPlain c := by simp
  exact forall_mem_append.2 ⟨forall_mem_append.2 ⟨hquote, hchars⟩, hquote⟩

theorem plain_number (x : Binary64) : Plain x.print := by
  by_cases hx : x.isFinite
  · obtain ⟨y, hy, -⟩ := x.print_numeral hx
    refine hy.forall_mem (fun c hc => ?_) (by simp)
    have hne {d : Char} (hd : Literal.isDigit d = false) : c ≠ d := Grammar.isDigit_ne hc hd
    exact ⟨hne (by decide), not_or.2 ⟨hne (by decide), hne (by decide)⟩⟩
  · rcases x.print_of_not_isFinite hx with h | h | h
    iterate 3 simp [h, Plain]

theorem plain_atom {a : Atom} (hstring : ∀ text, a = .string text → Plain text)
    (hsymbol : ∀ name, a = .symbol name → Plain name) : Plain a.print := by
  cases a with
  | string text => exact (hstring text rfl).quoted
  | symbol name => exact hsymbol name rfl
  | number x => exact plain_number x
  | bool b => cases b <;> simp [Atom.print, Plain]

end Scriptlet

namespace Heap
open Scriptlet

/-- No string and no symbol in the node has a percent sign or a brace. -/
def PlainTexts (h : Heap) (n : Node) : Prop :=
  ∀ text, h.Reaches n (.string text) ∨ h.Reaches n (.symbol text) → Plain text

variable {h : Heap} {n m x : Node}

theorem Reaches.trans (H : h.Reaches n m) (H' : h.Reaches m x) : h.Reaches n x := by
  induction H with
  | self => exact H'
  | item hx _ ih => exact .item hx (ih H')
  | head _ ih => exact .head (ih H')
  | tail _ ih => exact .tail (ih H')

theorem PlainTexts.of_reaches (H : h.PlainTexts n) (hm : h.Reaches n m) : h.PlainTexts m :=
  fun text htext => H text (htext.imp hm.trans hm.trans)

theorem plainTexts_list_iff {xs : List Node} :
    h.PlainTexts (.list xs) ↔ ∀ x ∈ xs, h.PlainTexts x := by
  refine ⟨fun H x hx => H.of_reaches (.item hx .self), fun H text htext => ?_⟩
  rcases htext with hreach | hreach
  · cases hreach with
    | item hx hreach => exact H _ hx text (.inl hreach)
  · cases hreach with
    | item hx hreach => exact H _ hx text (.inr hreach)

theorem plainTexts_string_iff {text : String} : h.PlainTexts (.string text) ↔ Plain text := by
  refine ⟨fun H => H text (.inl .self), fun H _ htext => ?_⟩
  rcases htext with hreach | hreach
  · cases hreach
    exact H
  · cases hreach

theorem plainTexts_symbol_iff {name : String} : h.PlainTexts (.symbol name) ↔ Plain name := by
  refine ⟨fun H => H name (.inr .self), fun H _ htext => ?_⟩
  rcases htext with hreach | hreach
  · cases hreach
  · cases hreach
    exact H

theorem reaches_walk (limit : Nat) (seen : List Node) :
    (∀ x ∈ (h.walk limit n seen).heads, x ∈ seen ∨ h.Reaches n x) ∧
      h.Reaches n (h.walk limit n seen).rest := by
  induction limit generalizing n seen with
  | zero => exact ⟨fun x hx => .inl (mem_reverse.1 hx), .self⟩
  | succ limit ih =>
    cases n with
    | atom | list | nil => exact ⟨fun x hx => .inl (mem_reverse.1 hx), .self⟩
    | cell id =>
      obtain ⟨hheads, hrest⟩ := ih (n := h.tail id) (h.head id :: seen)
      refine ⟨fun x hx => ?_, .tail hrest⟩
      rcases hheads x hx with hx | hx
      · rcases mem_cons.1 hx with rfl | hx
        · exact .inr (.head .self)
        · exact .inl hx
      · exact .inr (.tail hx)

theorem reaches_chain (hx : x ∈ (h.chain n).heads) : h.Reaches n x :=
  ((reaches_walk maxChain []).1 x hx).resolve_left not_mem_nil

theorem reaches_item {xs : List Node} (hseq : h.sequence n = .ok xs) (hx : x ∈ xs) :
    h.Reaches n x := by
  cases n with
  | list =>
    cases hseq
    exact .item hx .self
  | atom | nil =>
    cases hseq
    cases hx
  | cell id =>
    rw [sequence] at hseq
    split at hseq
    · cases hseq
    · next heq =>
      cases hseq
      exact reaches_chain (by rwa [heq])

theorem PlainTexts.printAt (H : h.PlainTexts n) (levels : Nat) : Plain (h.printAt levels n) := by
  induction levels generalizing n with
  | zero => simp [Heap.printAt, Plain]
  | succ levels ih =>
    have hitems {xs : List Node} (hxs : ∀ x ∈ xs, h.Reaches n x) :
        Plain (" ".intercalate (xs.map (h.printAt levels))) := by
      refine of_intercalate plain_empty .append plain_space (forall_mem_map.2 fun x hx => ?_)
      exact ih (H.of_reaches (hxs x hx))
    have hopen : Plain "(" := by simp [Plain]
    have hclose : Plain ")" := by simp [Plain]
    cases n with
    | atom a =>
      refine plain_atom (fun text ha => H text (.inl ?_)) (fun name ha => H name (.inr ?_))
      · rw [ha]
        exact .self
      · rw [ha]
        exact .self
    | nil => exact hopen.append hclose
    | list xs => exact (hopen.append (hitems fun x hx => .item hx .self)).append hclose
    | cell id =>
      rw [Heap.printAt_cell]
      refine ((hopen.append (hitems fun x => reaches_chain)).append ?_).append hclose
      have hrest := ih (H.of_reaches (reaches_walk maxChain []).2)
      unfold Heap.restText Heap.endingText
      split
      · simp [Plain]
      · split
        · exact plain_empty
        · exact Plain.append (by simp [Plain]) hrest

theorem PlainTexts.stringOf (H : h.PlainTexts n) : Plain (h.stringOf n) := by
  have hprint := H.printAt (maxNesting + 1)
  cases n with
  | list | cell | nil => exact hprint
  | atom a =>
    cases a with
    | string text => exact H text (.inl .self)
    | symbol name => exact H name (.inr .self)
    | number x => exact plain_number x
    | bool b => cases b <;> simp [Heap.stringOf, Plain]

theorem PlainTexts.string (H : h.PlainTexts n) {text : String} (htext : n.string? = some text) :
    Plain text := by
  unfold Node.string? at htext
  split at htext
  · cases htext
    exact H text (.inl .self)
  · cases htext

end Heap

/-! ## Forms -/

namespace Scriptlet
open Markup

variable {h : Heap} {args : List Node} {texts : List String}

/-- A text that leaves one block open. -/
def Opens (text : String) : Prop := ∀ a, Scripted a (a + 1) text.toList

/-- A scriptlet without braces. -/
theorem closed_scriptlet (hhead : body.toList.head? ≠ some '>') (hbody : Plain body) :
    Closed ("<%" ++ body ++ " %>") := by
  intro a
  have hbraces : Braces a a body.toList := braces_of_forall fun c hc => (hbody c hc).2
  simpa using Scripted.scriptlet hhead (fun hmem => (hbody _ hmem).1 rfl) hbraces .nil

/-- A scriptlet that opens a block at its end. -/
theorem opens_scriptlet (hhead : body.toList.head? ≠ some '>') (hbody : Plain body) :
    Opens ("<%" ++ body ++ "\x7b %>") := by
  intro a
  have hpercent : '%' ∉ body.toList ++ ['\x7b'] := by
    simpa using fun hmem => (hbody _ hmem).1 rfl
  have hbraces : Braces a (a + 1) (body.toList ++ ['\x7b']) :=
    (braces_of_forall fun c hc => (hbody c hc).2).append (.opening .nil)
  simpa using Scripted.scriptlet (head?_append_ne hhead (by simp)) hpercent hbraces .nil

theorem Opens.append (hs : Opens s) (ht : Closed t) : Opens (s ++ t) := by
  intro a
  rw [String.toList_append]
  exact (hs a).append (ht (a + 1))

theorem Opens.append_else (H : Opens s) : Opens (s ++ "<% \x7d else \x7b %>") := by
  intro a
  have hword : ∀ c ∈ " else ".toList, ¬ IsBrace c := by simp
  have helse : Braces a (a + 1) " else \x7b".toList :=
    (braces_of_forall hword).append (.opening .nil)
  have hbraces := Braces.other (c := ' ') (by simp) (.closing helse)
  rw [String.toList_append]
  exact (H a).append (.scriptlet (by simp) (by simp) hbraces .nil)

theorem Opens.append_blockEnd (H : Opens s) : Closed (s ++ blockEnd) := by
  intro a
  have hbraces : Braces (a + 1) a [' ', '\x7d'] := .other (by simp) (.closing .nil)
  rw [String.toList_append]
  exact (H a).append (.scriptlet (by simp) (by simp) hbraces .nil)

theorem opens_conditional (H : Plain test) : Opens ("<% if (" ++ test ++ ") \x7b %>") := by
  have hbody : Plain (" if (" ++ test ++ ") ") :=
    .append (.append (by simp [Plain]) H) (by simp [Plain])
  simpa [Opens] using opens_scriptlet (by simp) hbody

theorem opens_loop (hvar : Plain var) (hexpr : Plain expr) :
    Opens ("<% for (const " ++ var ++ " of " ++ expr ++ ") \x7b %>") := by
  have hvar : Plain (" for (const " ++ var ++ " of ") :=
    .append (.append (by simp [Plain]) hvar) (by simp [Plain])
  have hbody := (hvar.append hexpr).append (t := ") ") (by simp [Plain])
  simpa [Opens] using opens_scriptlet (by simp) hbody

section
variable (hargs : ∀ n ∈ args, h.PlainTexts n)
include hargs

theorem closed_escaped : Closed (escaped h args) := by
  cases args with
  | nil => exact plain_empty.closed
  | cons expr rest =>
    have hexpr := hargs expr mem_cons_self
    rw [escaped_cons]
    cases htext : expr.string? with
    | some text => exact (hexpr.string htext).escapeHtml.closed
    | none =>
      have hbody : Plain ("= " ++ h.stringOf expr) :=
        .append (by simp [Plain]) hexpr.stringOf
      simpa [Closed] using closed_scriptlet (by simp) hbody

theorem closed_raw : Closed (raw h args) := by
  cases args with
  | nil => exact plain_empty.closed
  | cons expr rest =>
    have hexpr := hargs expr mem_cons_self
    rw [raw_cons]
    cases htext : expr.string? with
    | some text => exact (hexpr.string htext).closed
    | none =>
      have hbody : Plain ("- " ++ h.stringOf expr) :=
        .append (by simp [Plain]) hexpr.stringOf
      simpa [Closed] using closed_scriptlet (by simp) hbody

/-- The nodes that are rendered have closed texts if their own texts are plain. -/
theorem closed_of_forall₂ (H : Forall₂ (fun n text => h.PlainTexts n → Closed text) args texts) :
    ∀ text ∈ texts, Closed text := by
  induction H with
  | nil => simp
  | cons hn _ ih =>
    obtain ⟨hfirst, hrest⟩ := forall_mem_cons.1 hargs
    exact forall_mem_cons.2 ⟨hn hfirst, ih hrest⟩

theorem closed_of_pairs (H : Pairs (fun n text => h.PlainTexts n → Closed text) args texts) :
    ∀ text ∈ texts, Closed text := by
  induction H with
  | nil | valueless => simp
  | cons hkey hvalue _ ih =>
    obtain ⟨hkey', hrest⟩ := forall_mem_cons.1 hargs
    obtain ⟨hvalue', hrest⟩ := forall_mem_cons.1 hrest
    have hequal : Plain "=\"" := by simp [Plain]
    have hquote : Plain "\"" := by simp [Plain]
    refine forall_mem_cons.2 ⟨?_, ih hrest⟩
    exact (((hkey hkey').append hequal.closed).append (hvalue hvalue')).append hquote.closed

theorem closed_of_parts
    (H : Parts h (fun n text => h.PlainTexts n → Closed text) args attrs texts) :
    Closed attrs ∧ Closed (String.join texts) := by
  cases H with
  | children _ hchildren =>
    have hclosed := closed_of_forall₂ hargs hchildren
    exact ⟨plain_empty.closed, of_join plain_empty.closed .append hclosed⟩
  | attributes _ hattrs hchildren =>
    obtain ⟨hfirst, hrest⟩ := forall_mem_cons.1 hargs
    exact ⟨plain_space.closed.append (hattrs hfirst),
      of_join plain_empty.closed .append (closed_of_forall₂ hrest hchildren)⟩

theorem closed_of_pressed {form : Form} (htag : Plain tag)
    (H : Pressed h (fun n text => h.PlainTexts n → Closed text) tag form args text) :
    Closed text := by
  have hempty := plain_empty.closed
  have hlt : Closed "<" := Plain.closed (by simp [Plain])
  have hgt : Closed ">" := Plain.closed (by simp [Plain])
  have hend : Closed "</" := Plain.closed (by simp [Plain])
  have hvoid : Closed " />" := Plain.closed (by simp [Plain])
  have htag := htag.closed
  cases H with
  | escaped => exact closed_escaped hargs
  | raw => exact closed_raw hargs
  | noCondition | noLoop => exact hempty
  | noBranch => exact (opens_conditional (forall_mem_singleton.1 hargs).stringOf).append_blockEnd
  | branch hyes =>
    obtain ⟨htest, hargs⟩ := forall_mem_cons.1 hargs
    have hopen := (opens_conditional htest.stringOf).append (hyes (forall_mem_singleton.1 hargs))
    exact hopen.append_blockEnd
  | branches hyes hno =>
    obtain ⟨htest, hargs⟩ := forall_mem_cons.1 hargs
    obtain ⟨hyes', hargs⟩ := forall_mem_cons.1 hargs
    have hopen := ((opens_conditional htest.stringOf).append (hyes hyes')).append_else
    exact (hopen.append (hno (hargs _ mem_cons_self))).append_blockEnd
  | loop hbody =>
    obtain ⟨hvar, hargs⟩ := forall_mem_cons.1 hargs
    obtain ⟨-, hargs⟩ := forall_mem_cons.1 hargs
    obtain ⟨hexpr, hargs⟩ := forall_mem_cons.1 hargs
    have hbody := of_join hempty .append (closed_of_forall₂ hargs hbody)
    exact ((opens_loop hvar.stringOf hexpr.stringOf).append hbody).append_blockEnd
  | attributes hpairs =>
    exact of_intercalate hempty .append plain_space.closed (closed_of_pairs hargs hpairs)
  | void hparts =>
    exact ((hlt.append htag).append (closed_of_parts hargs hparts).1).append hvoid
  | element hparts =>
    obtain ⟨hattrs, hcontent⟩ := closed_of_parts hargs hparts
    have hstart := ((hlt.append htag).append hattrs).append hgt
    exact (((hstart.append hcontent).append hend).append htag).append hgt

end
end Scriptlet

namespace Heap
open Scriptlet
variable {h : Heap} {n : Node} {text : String} {levels : Nat}

theorem closed_markupAt (hn : h.PlainTexts n) (H : h.markupAt levels n = .ok text) :
    Closed text := by
  induction levels generalizing n text with
  | zero => cases H
  | succ levels ih =>
    cases n with
    | atom =>
      cases H
      exact hn.stringOf.closed
    | list | cell | nil =>
      rw [h.markupAt_of_isList _ rfl] at H
      obtain ⟨items, hseq, H⟩ := bind_eq_ok_iff.1 H
      have hitems : ∀ x ∈ items, h.PlainTexts x := fun x hx => hn.of_reaches (reaches_item hseq hx)
      cases items with
      | nil =>
        cases H
        exact plain_empty.closed
      | cons head args =>
        obtain ⟨hhead, hargs⟩ := forall_mem_cons.1 hitems
        have hpressed := Markup.form_eq_ok_iff.1 H
        exact closed_of_pressed hargs hhead.stringOf (hpressed.mono fun _ _ hr hx => ih hx hr)

/-- Where no string and no symbol in a node has a percent sign or a brace, the delimiters `<%` and
`%>` in its markup alternate, and the braces stand in scriptlets and are nested. -/
theorem markup_balanced (hn : h.PlainTexts n) (H : h.markup n = .ok text) :
    Balanced text.toList :=
  (closed_markupAt hn H 0).balanced

/-- A loop in an attribute of an element in a branch; the loop runs over a printed list, and the
text of the other branch looks like the end of a tag. -/
theorem markup_balanced_nested :
    let loop : Node := .list [.symbol "for", .symbol "x", .symbol "in",
      .list [.symbol "f", .string "<"], .list [.symbol "$", .symbol "x"]]
    let yes : Node := .list [.symbol "b", .list [.symbol "@", .symbol "id", loop]]
    let n : Node := .list [.symbol "if", .symbol "a<", yes, .string "</"]
    let text := "<% if (a<) \x7b %><b id=\"<% for (const x of (f \"<\")) \x7b %><%= x %>" ++
      "<% \x7d %>\"></b><% \x7d else \x7b %></<% \x7d %>"
    empty.PlainTexts n ∧ empty.markup n = .ok text ∧ Balanced text.toList := by
  intro loop yes n text
  have hn : empty.PlainTexts n := by
    simp [n, yes, loop, plainTexts_list_iff, plainTexts_symbol_iff, plainTexts_string_iff, Plain]
  have H : empty.markup n = .ok text := by decide +kernel
  exact ⟨hn, H, markup_balanced hn H⟩

end Heap
end ListPress
