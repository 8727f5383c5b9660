import Mathlib.Data.List.Basic
import ListPress.Text.Entity

/-! # Escaped texts

An escaped text has no mark of markup left in it but the `&` of the entities, and one pass over it
gives the text back (`unescapeHtml`), so no two texts are escaped alike. -/

namespace ListPress
open List

def entities : List (List Char) :=
  [['&', 'a', 'm', 'p', ';'], ['&', 'l', 't', ';'], ['&', 'g', 't', ';'],
    ['&', 'q', 'u', 'o', 't', ';'], ['&', '#', '3', '9', ';']]

/-- Replace entities by their characters, in one pass from left to right. -/
def unescape : List Char → List Char
  | '&' :: 'a' :: 'm' :: 'p' :: ';' :: cs => '&' :: unescape cs
  | '&' :: 'l' :: 't' :: ';' :: cs => '<' :: unescape cs
  | '&' :: 'g' :: 't' :: ';' :: cs => '>' :: unescape cs
  | '&' :: 'q' :: 'u' :: 'o' :: 't' :: ';' :: cs => '"' :: unescape cs
  | '&' :: '#' :: '3' :: '9' :: ';' :: cs => '\'' :: unescape cs
  | c :: cs => c :: unescape cs
  | [] => []

def unescapeHtml (text : String) : String := String.ofList (unescape text.toList)

/-! ## One character -/

theorem unescape_cons {c : Char} (hc : c ≠ '&') (cs : List Char) :
    unescape (c :: cs) = c :: unescape cs := by
  rw [unescape.eq_6] <;> intro _ h <;> exact absurd h hc

theorem unescape_entity_append (c : Char) (cs : List Char) :
    unescape (entity c ++ cs) = c :: unescape cs := by
  fun_cases entity c with
  | case1 | case2 | case3 | case4 | case5 => rfl
  | case6 c hc => exact unescape_cons hc cs

/-- A character is written as an entity, or it is none of those that are escaped. -/
theorem entity_cases (c : Char) :
    entity c ∈ entities ∨ entity c = [c] ∧ c ∉ ['&', '<', '>', '"', '\''] := by
  fun_cases entity c with
  | case1 | case2 | case3 | case4 | case5 => exact .inl (by simp [entities])
  | case6 c hamp hlt hgt hquot hapos =>
    exact .inr ⟨rfl, by simpa using ⟨hamp, hlt, hgt, hquot, hapos⟩⟩

theorem not_mem_entity {c x : Char} (hx : x ∈ ['<', '>', '"', '\'']) : x ∉ entity c := by
  rcases entity_cases c with hentity | ⟨hentity, hc⟩
  · have hnone : ∀ e ∈ entities, ∀ x ∈ ['<', '>', '"', '\''], x ∉ e := by simp [entities]
    exact hnone _ hentity x hx
  · rw [hentity, mem_singleton]
    rintro rfl
    exact hc (mem_cons_of_mem '&' hx)

/-- An `&` stands at the beginning of an entity only. -/
theorem entity_eq_append {c : Char} {before after : List Char}
    (H : entity c = before ++ '&' :: after) : before = [] ∧ entity c ∈ entities := by
  rcases entity_cases c with hentity | ⟨hentity, hc⟩
  · have hfirst : ∀ e ∈ entities, '&' ∉ e.tail := by simp [entities]
    refine ⟨?_, hentity⟩
    cases before with
    | nil => rfl
    | cons x before =>
      refine absurd ?_ (hfirst _ hentity)
      rw [H]
      exact mem_append_right before mem_cons_self
  · have hmem : '&' ∈ entity c := H ▸ mem_append_right before mem_cons_self
    rw [hentity, mem_singleton] at hmem
    exact absurd (hmem ▸ mem_cons_self) hc

/-! ## Texts -/

theorem unescape_flatMap_entity (cs : List Char) : unescape (cs.flatMap entity) = cs := by
  induction cs with
  | nil => rfl
  | cons c cs ih => rw [flatMap_cons, unescape_entity_append, ih]

theorem unescapeHtml_escapeHtml (text : String) : unescapeHtml (escapeHtml text) = text := by
  rw [unescapeHtml, escapeHtml, String.toList_ofList, unescape_flatMap_entity, String.ofList_toList]

theorem exists_entity_of_flatMap {cs before after : List Char}
    (H : cs.flatMap entity = before ++ '&' :: after) : ∃ e ∈ entities, e <+: '&' :: after := by
  induction cs generalizing before with
  | nil => exact absurd H.symm (append_ne_nil_of_right_ne_nil _ (cons_ne_nil _ _))
  | cons c cs ih =>
    rw [flatMap_cons] at H
    rcases append_eq_append_iff.1 H with ⟨more, rfl, hrest⟩ | ⟨more, hentity, hrest⟩
    · exact ih hrest
    · -- the `&` is in the entity of the first character, or right behind it
      cases more with
      | nil =>
        have hfirst : cs.flatMap entity = [] ++ '&' :: after := hrest.symm
        exact ih hfirst
      | cons x more =>
        cases hrest
        obtain ⟨rfl, hmem⟩ := entity_eq_append hentity
        exact ⟨_, hmem, by rw [hentity]; exact prefix_append _ _⟩

/-- An escaped text has no quotation mark and no angle bracket in it, and every `&` in it is that of
an entity. Its entities stand for the characters of the text, so different texts are escaped
differently. -/
theorem escapeHtml_reversible (text : String) :
    (∀ c ∈ ['<', '>', '"', '\''], c ∉ (escapeHtml text).toList) ∧
    (∀ before after, (escapeHtml text).toList = before ++ '&' :: after →
      ∃ e ∈ entities, e <+: '&' :: after) ∧
    unescapeHtml (escapeHtml text) = text ∧
    ∀ text', escapeHtml text' = escapeHtml text → text' = text := by
  refine ⟨fun c hc hmem => ?_, fun before after H => ?_, unescapeHtml_escapeHtml text,
    fun text' heq => ?_⟩
  · rw [escapeHtml, String.toList_ofList, mem_flatMap] at hmem
    obtain ⟨x, -, hmem⟩ := hmem
    exact not_mem_entity hc hmem
  · rw [escapeHtml, String.toList_ofList] at H
    exact exists_entity_of_flatMap H
  · rw [← unescapeHtml_escapeHtml text', heq, unescapeHtml_escapeHtml]

/-- The text has an entity in it already, and a bracket behind it. -/
theorem escapeHtml_reversible_twice :
    escapeHtml "&lt;<" = "&amp;lt;&lt;" ∧ '<' ∉ "&amp;lt;&lt;".toList ∧
      (∃ e ∈ entities, e <+: ['&', 'l', 't', ';']) ∧ unescapeHtml "&amp;lt;&lt;" = "&lt;<" ∧
      escapeHtml "<<" ≠ "&amp;lt;&lt;" := by
  have hescape : escapeHtml "&lt;<" = "&amp;lt;&lt;" := by decide +kernel
  obtain ⟨hmarks, hentity, hback, hsame⟩ := escapeHtml_reversible "&lt;<"
  rw [hescape] at hmarks hentity hback hsame
  refine ⟨hescape, hmarks '<' mem_cons_self, ?_, hback, fun heq => ?_⟩
  · exact hentity ['&', 'a', 'm', 'p', ';', 'l', 't', ';'] _ (by simp)
  · exact absurd (hsame _ heq) (by decide)

end ListPress
