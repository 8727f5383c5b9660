import ListPress.Datum.Reader

/-! # The grammar of data

What a text denotes, said without the reader. Every relation goes from a text to what is left of it:
`Separators cs rest` says that `cs` is separators and then `rest`, and `Data depth cs d rest` that
it is a datum that denotes `d`, possibly behind separators, and then `rest`. What is left decides
where a word or a comment ends.

The second part compares the tokens of the reader with this grammar: `scan` finds exactly the
lexemes of `Scans` (`scans_scan`, `Scans.scan_eq`). -/

namespace ListPress
namespace Grammar
open List

/-! ## Separators -/

/-- Here a line ends, or the text. -/
inductive LineEnd : List Char → Prop
  | finish : LineEnd []
  | lineFeed : LineEnd ('\n' :: cs)
  | carriageReturn : LineEnd ('\r' :: '\n' :: cs)

/-- Spaces and comments. A comment has to be followed by the end of a line or of the text. -/
inductive Separators : List Char → List Char → Prop
  | none : Separators cs cs
  | space : c ∈ [' ', '\t', '\r', '\n'] → Separators cs rest → Separators (c :: cs) rest
  | comment : (∀ c ∈ text, c ≠ '\r' ∧ c ≠ '\n') → LineEnd cs → Separators cs rest →
    Separators (';' :: (text ++ cs)) rest

/-! ## String literals -/

/-- The characters that can follow a backslash, and what they stand for. -/
inductive Escape : Char → Char → Prop
  | newline : Escape 'n' '\n'
  | tab : Escape 't' '\t'
  | carriageReturn : Escape 'r' '\r'
  | backslash : Escape '\\' '\\'
  | mark : Escape '"' '"'

/-- What follows an opening quotation mark, with the text it stands for. -/
inductive StringBody : List Char → List Char → List Char → Prop
  | close : StringBody ('"' :: rest) [] rest
  | escape : Escape c e → StringBody cs text rest → StringBody ('\\' :: c :: cs) (e :: text) rest
  | plain : c ≠ '"' → c ≠ '\\' → StringBody cs text rest → StringBody (c :: cs) (c :: text) rest

/-! ## Words -/

/-- A word that comes before this text ends here. -/
def Boundary (cs : List Char) : Prop := ∀ c ∈ cs.head?, isDelimiter c

/-- A run of characters that are no delimiters. -/
def IsWord (w : List Char) : Prop := w ≠ [] ∧ ∀ c ∈ w, isDelimiter c = false

inductive Sign : List Char → Bool → Prop
  | none : Sign [] false
  | plus : Sign ['+'] false
  | minus : Sign ['-'] true

/-- The point of a numeral and the digits after it. -/
inductive Fraction : List Char → List Char → Prop
  | none : Fraction [] []
  | point : (∀ c ∈ places, Literal.isDigit c) → Fraction ('.' :: places) places

inductive Exponent : List Char → Int → Prop
  | none : Exponent [] 0
  | mark : c ∈ ['e', 'E'] → Sign sign negative → digits ≠ [] → (∀ c ∈ digits, Literal.isDigit c) →
    Exponent (c :: (sign ++ digits)) (Literal.exponentValue negative digits)

/-- A sign, digits with a point among them and an exponent, all but one digit optional; it denotes
the rounded value of its digits. -/
inductive Numeral : List Char → Binary64 → Prop
  | intro : Sign sign negative → (∀ c ∈ whole, Literal.isDigit c) → Fraction fraction places →
    ¬(whole = [] ∧ places = []) → Exponent exponent e →
    Numeral (sign ++ (whole ++ (fraction ++ exponent)))
      (Literal.rounded negative (whole ++ places) (e - places.length))

/-- A word denotes a boolean, a number or, if neither, the symbol of its name. -/
inductive Word : List Char → Atom → Prop
  | true : Word ['#', 't'] (.bool true)
  | false : Word ['#', 'f'] (.bool false)
  | number : Numeral w x → Word w (.number x)
  | symbol : w ≠ ['#', 't'] → w ≠ ['#', 'f'] → (∀ x, ¬Numeral w x) →
    Word w (.symbol (String.ofList w))

/-- The next token is a lone dot. -/
def Dot (cs : List Char) : Prop := ∃ rest, Separators cs ('.' :: rest) ∧ Boundary rest

/-! ## Data -/

/-- The chain of `items` in front of `t`. The items of an array list go on with the chain. -/
def continued (items : List Datum) : Datum → Datum
  | .list more => .chain (items ++ more) .nil
  | t => .chain items t

mutual
/-- A datum some levels deep, with separators in front of it. -/
inductive Data : (depth : Nat) → List Char → Datum → List Char → Prop
  | intro : depth < maxReadDepth → Separators cs start → Form depth start d rest →
    Data depth cs d rest

/-- A datum that starts right here. -/
inductive Form : (depth : Nat) → List Char → Datum → List Char → Prop
  | quote : Data (depth + 1) cs d rest →
    Form depth ('\'' :: cs) (.list [.symbol "quote", d]) rest
  | empty : Separators cs (')' :: rest) → Form depth ('(' :: cs) .nil rest
  | list : Run (depth + 1) cs items cs' → Separators cs' (')' :: rest) →
    Form depth ('(' :: cs) (.list items) rest
  | dotted : Run (depth + 1) cs items cs₁ → Separators cs₁ ('.' :: cs₂) → Boundary cs₂ →
    Data (depth + 1) cs₂ t cs₃ → Separators cs₃ (')' :: rest) →
    Form depth ('(' :: cs) (continued items t) rest
  | string : StringBody cs text rest →
    Form depth ('"' :: cs) (.atom (.string (String.ofList text))) rest
  | word : IsWord w → Boundary rest → Word w a → Form depth (w ++ rest) (.atom a) rest

/-- A run of data, at least one and none of them a lone dot. -/
inductive Run : (depth : Nat) → List Char → List Datum → List Char → Prop
  | last : ¬Dot cs → Data depth cs d rest → Run depth cs [d] rest
  | cons : ¬Dot cs → Data depth cs d cs' → Run depth cs' items rest →
    Run depth cs (d :: items) rest
end

/-- The text is one datum between separators, and denotes it. -/
def Denotes (cs : List Char) (d : Datum) : Prop :=
  ∃ rest, Data 0 cs d rest ∧ Separators rest []

theorem Run.ne_nil {depth : Nat} {cs rest : List Char} {items : List Datum}
    (H : Run depth cs items rest) : items ≠ [] := by
  cases H <;> exact nofun

theorem Run.snoc {depth : Nat} {cs cs' rest : List Char} {items : List Datum} {d : Datum}
    (hdot : ¬Dot cs') (hd : Data depth cs' d rest) :
    Run depth cs items cs' → Run depth cs (items ++ [d]) rest
  | .last hdot' hd' => .cons hdot' hd' (.last hdot hd)
  | .cons hdot' hd' H => .cons hdot' hd' (Run.snoc hdot hd H)

/-! ## Skipping separators -/

theorem mem_spaces_iff {c : Char} : c ∈ [' ', '\t', '\r', '\n'] ↔ isSpace c := by
  simp [isSpace, or_assoc]

theorem skipFrom_comment {text : List Char} (start : List Char) (cs : List Char)
    (ht : ∀ c ∈ text, c ≠ '\r' ∧ c ≠ '\n') :
    Lexeme.skipFrom (some start) (text ++ cs) = Lexeme.skipFrom (some start) cs := by
  induction text with
  | nil => rfl
  | cons c text ih =>
    obtain ⟨⟨hr, hn⟩, ht⟩ := forall_mem_cons.1 ht
    rw [cons_append, Lexeme.skipFrom.eq_7 start c _ hn hr, ih ht]

theorem skip_lineEnd {cs : List Char} (start : List Char) (H : LineEnd cs) :
    Lexeme.skipFrom (some start) cs = Lexeme.skip cs := by
  cases H <;> rfl

/-- The reader skips whatever separators the grammar takes off, and goes on. -/
theorem Separators.skip_eq {cs rest : List Char} (H : Separators cs rest) :
    Lexeme.skip cs = Lexeme.skip rest := by
  induction H with
  | none => rfl
  | space hc _ ih =>
    rw [← ih, Lexeme.skip, Lexeme.skip, Lexeme.skipFrom, if_pos (mem_spaces_iff.1 hc)]
  | @comment text cs rest ht hcs _ ih =>
    have hstart : Lexeme.skip (';' :: (text ++ cs)) =
        Lexeme.skipFrom (some (';' :: (text ++ cs))) (text ++ cs) := rfl
    rw [hstart, skipFrom_comment _ _ ht, skip_lineEnd _ hcs, ih]

theorem Separators.trans {cs cs' rest : List Char} (H : Separators cs cs')
    (H' : Separators cs' rest) : Separators cs rest := by
  induction H with
  | none => exact H'
  | space hc _ ih => exact .space hc (ih H')
  | comment ht hcs _ ih => exact .comment ht hcs (ih H')

/-- How far skipping has come: `start` is the text that is not known to be separators yet. -/
inductive Skipping : Option (List Char) → (start cs : List Char) → Prop
  | outside : Skipping none cs cs
  | inComment : (∀ c ∈ text, c ≠ '\r' ∧ c ≠ '\n') →
    Skipping (some (';' :: (text ++ cs))) (';' :: (text ++ cs)) cs

theorem Skipping.separators {comment : Option (List Char)} {start cs : List Char}
    (H : Skipping comment start cs) : Separators start (Lexeme.skipFrom comment cs) := by
  fun_induction Lexeme.skipFrom comment cs generalizing start with
  | case1 => cases H; exact .none
  | case2 c cs hc ih => cases H; exact .space (mem_spaces_iff.2 hc) (ih .outside)
  | case3 cs _ ih => cases H; exact ih (@Skipping.inComment [] cs (by simp))
  | case4 => cases H; exact .none
  | case5 =>
    cases H with | inComment ht =>
    exact .comment ht .finish .none
  | case6 _ cs ih =>
    cases H with | inComment ht =>
    exact .comment ht .lineFeed (.space (by simp) (ih .outside))
  | case7 _ cs ih =>
    cases H with | inComment ht =>
    exact .comment ht .carriageReturn (.space (by simp) (.space (by simp) (ih .outside)))
  -- a carriage return on its own: the comment was none
  | case8 => cases H; exact .none
  | case9 _ c cs hn hr ih =>
    cases H with | @inComment text _ ht =>
    simp only [append_cons text c cs] at ih ⊢
    refine ih (.inComment fun x hx => ?_)
    rcases mem_append.1 hx with hx | hx
    · exact ht x hx
    · exact mem_singleton.1 hx ▸ ⟨hr, hn⟩

theorem separators_skip (cs : List Char) : Separators cs (Lexeme.skip cs) :=
  Skipping.separators .outside

/-! ## String literals and words -/

theorem escape?_eq_some_iff {c e : Char} : Lexeme.escape? c = some e ↔ Escape c e := by
  constructor
  · intro H
    unfold Lexeme.escape? at H
    split at H <;> cases H <;> constructor
  · rintro (_ | _ | _ | _ | _) <;> rfl

theorem StringBody.stringBody_eq {cs text rest : List Char} (H : StringBody cs text rest)
    (seen : List Char) :
    Lexeme.stringBody cs seen = .ok (String.ofList (seen.reverse ++ text), rest) := by
  induction H generalizing seen with
  | close => rw [Lexeme.stringBody, append_nil]
  | escape he _ ih =>
    rw [Lexeme.stringBody, escape?_eq_some_iff.2 he]
    simp [ih]
  | plain hq hb _ ih =>
    rw [Lexeme.stringBody]
    · simp [ih]
    · exact hq
    · exact fun _ _ h => absurd h hb
    · exact fun h => absurd h hb

/-- A backslash is taken with the character after it, or is the last one. -/
theorem ne_backslash {c : Char} {cs : List Char}
    (hesc : ∀ c' cs', c = '\\' → cs = c' :: cs' → False) (hlast : c = '\\' → cs = [] → False) :
    c ≠ '\\' := by
  rintro rfl
  cases cs with
  | nil => exact hlast rfl rfl
  | cons c cs => exact hesc c cs rfl rfl

theorem stringBody_sound {cs seen rest : List Char} {text : String}
    (H : Lexeme.stringBody cs seen = .ok (text, rest)) :
    ∃ body, StringBody cs body rest ∧ text = String.ofList (seen.reverse ++ body) := by
  fun_induction Lexeme.stringBody cs seen with
  | case1 cs seen =>
    cases H
    exact ⟨[], .close, by rw [append_nil]⟩
  | case2 c cs seen e he ih =>
    obtain ⟨body, hbody, rfl⟩ := ih H
    exact ⟨e :: body, .escape (escape?_eq_some_iff.1 he) hbody, by simp⟩
  | case5 c cs seen hq hesc hlast ih =>
    obtain ⟨body, hbody, rfl⟩ := ih H
    exact ⟨c :: body, .plain hq (ne_backslash hesc hlast) hbody, by simp⟩
  | case3 | case4 | case6 => cases H

theorem takeWhile_append_stop {p : Char → Bool} {xs ys : List Char} (hxs : ∀ x ∈ xs, p x)
    (hys : ∀ y ∈ ys.head?, p y = false) :
    (xs ++ ys).takeWhile p = xs ∧ (xs ++ ys).dropWhile p = ys := by
  rw [takeWhile_append_of_pos hxs, dropWhile_append_of_pos hxs]
  cases ys with
  | nil => simp
  | cons y ys => simp [hys y rfl]

theorem not_mem_delimiters {c : Char} (hc : isDelimiter c = false) :
    c ≠ '(' ∧ c ≠ ')' ∧ c ≠ '\'' ∧ c ≠ '"' ∧ c ≠ ';' ∧ isSpace c = false := by
  refine ⟨?_, ?_, ?_, ?_, ?_, ?_⟩
  iterate 5
    rintro rfl
    revert hc
    decide
  · rw [Bool.eq_false_iff]
    intro hs
    simp only [← mem_spaces_iff, mem_cons, not_mem_nil, or_false] at hs
    rcases hs with rfl | rfl | rfl | rfl <;> exact absurd hc (by decide)

/-! ## Lexemes -/

/-- The lexemes that a text starts with, behind its separators. -/
inductive Scans : List Char → Lexeme → Prop
  | finish : Separators cs [] → Scans cs ⟨[], .finish, []⟩
  | opening : Separators cs ('(' :: rest) → Scans cs ⟨'(' :: rest, .opening, rest⟩
  | closing : Separators cs (')' :: rest) → Scans cs ⟨')' :: rest, .closing, rest⟩
  | quote : Separators cs ('\'' :: rest) → Scans cs ⟨'\'' :: rest, .quote, rest⟩
  | string : Separators cs ('"' :: body) → StringBody body text rest →
    Scans cs ⟨'"' :: body, .string (String.ofList text), rest⟩
  | word : Separators cs (w ++ rest) → IsWord w → Boundary rest →
    Scans cs ⟨w ++ rest, .word w, rest⟩

theorem skip_of_separators {cs rest : List Char} {c : Char} (H : Separators cs (c :: rest))
    (hs : isSpace c = false) (hc : c ≠ ';') : Lexeme.skip cs = c :: rest := by
  rw [H.skip_eq, Lexeme.skip, Lexeme.skipFrom, if_neg (by simp [hs]), if_neg hc]

theorem first_word {w rest : List Char} (hw : IsWord w) (hrest : Boundary rest) :
    Lexeme.first (w ++ rest) = ⟨w ++ rest, .word w, rest⟩ := by
  obtain ⟨hne, hw⟩ := hw
  cases w with
  | nil => exact absurd rfl hne
  | cons c w =>
    obtain ⟨hc, hw⟩ := forall_mem_cons.1 hw
    obtain ⟨ho, hcl, hq, hs, -⟩ := not_mem_delimiters hc
    obtain ⟨htake, hdrop⟩ := @takeWhile_append_stop (!isDelimiter ·) w rest
      (fun x hx => by simp [hw x hx]) (fun y hy => by simp [hrest y hy])
    rw [cons_append]
    unfold Lexeme.first
    split
    · next heq => cases heq
    · next heq => exact absurd (cons.inj heq).1 ho
    · next heq => exact absurd (cons.inj heq).1 hcl
    · next heq => exact absurd (cons.inj heq).1 hq
    · next heq => exact absurd (cons.inj heq).1 hs
    · next heq =>
      obtain ⟨rfl, rfl⟩ := cons.inj heq
      rw [if_neg (by simp [hc]), htake, hdrop]

/-- The reader finds every lexeme of the grammar. -/
theorem Scans.scan_eq {cs : List Char} {lexeme : Lexeme} (H : Scans cs lexeme) :
    Lexeme.scan cs = lexeme := by
  cases H with
  | finish h => rw [Lexeme.scan, h.skip_eq]; rfl
  | opening h | closing h | quote h =>
    rw [Lexeme.scan, skip_of_separators h (by decide) (by decide)]; rfl
  | string h hbody =>
    rw [Lexeme.scan, skip_of_separators h (by decide) (by decide)]
    unfold Lexeme.first
    simp only [hbody.stringBody_eq]
    rfl
  | @word w rest h hw hrest =>
    have hskip : Lexeme.skip cs = w ++ rest := by
      cases w with
      | nil => exact absurd rfl hw.1
      | cons c w =>
        obtain ⟨-, -, -, -, hc, hs⟩ := not_mem_delimiters (hw.2 c mem_cons_self)
        exact skip_of_separators h hs hc
    rw [Lexeme.scan, hskip, first_word hw hrest]

/-- The reader finds lexemes of the grammar only, or a fault. -/
theorem scans_scan (cs : List Char) : Scans cs (Lexeme.scan cs) ∨
    ∃ position, (Lexeme.scan cs).token = .fault position := by
  have H := separators_skip cs
  unfold Lexeme.scan
  generalize Lexeme.skip cs = start at H
  fun_cases Lexeme.first start with
  | case1 => exact .inl (.finish H)
  | case2 => exact .inl (.opening H)
  | case3 => exact .inl (.closing H)
  | case4 => exact .inl (.quote H)
  | case5 body text rest h =>
    obtain ⟨body', hbody, rfl⟩ := stringBody_sound h
    exact .inl (.string H hbody)
  | case6 body position h => exact .inr ⟨position, rfl⟩
  | case7 => exact .inr ⟨_, rfl⟩
  | case8 c cs ho hcl hq hs hc =>
    have hword : IsWord (c :: cs.takeWhile (!isDelimiter ·)) := by
      refine ⟨cons_ne_nil _ _, forall_mem_cons.2 ⟨by simpa using hc, fun x hx => ?_⟩⟩
      simpa using all_eq_true.1 (all_takeWhile (p := (!isDelimiter ·)) (l := cs)) x hx
    have hrest : Boundary (cs.dropWhile (!isDelimiter ·)) := by
      intro x hx
      have := head?_dropWhile_not (!isDelimiter ·) cs
      rw [hx] at this
      simpa using this
    have hstart :
        c :: cs = c :: cs.takeWhile (!isDelimiter ·) ++ cs.dropWhile (!isDelimiter ·) := by
      rw [cons_append, takeWhile_append_dropWhile]
    left
    rw [hstart] at H ⊢
    exact .word H hword hrest

theorem Scans.separators_closing {cs : List Char} {lexeme : Lexeme} (H : Scans cs lexeme)
    (h : lexeme.token = .closing) : Separators cs (')' :: lexeme.rest) := by
  cases H with
  | closing hs => exact hs
  | finish | opening | quote | string | word => cases h

theorem Scans.dot {cs rest : List Char} (H : Separators cs ('.' :: rest)) (hb : Boundary rest) :
    Scans cs ⟨'.' :: rest, .word ['.'], rest⟩ :=
  .word (w := ['.']) H ⟨cons_ne_nil _ _, forall_mem_singleton.2 (by decide)⟩ hb

theorem Scans.separators_dot {cs : List Char} {lexeme : Lexeme} (H : Scans cs lexeme)
    (h : lexeme.token = .word ['.']) :
    Separators cs ('.' :: lexeme.rest) ∧ Boundary lexeme.rest := by
  cases H with
  | word hs _ hb => cases h; exact ⟨hs, hb⟩
  | finish | opening | closing | quote | string => cases h

end Grammar
end ListPress
