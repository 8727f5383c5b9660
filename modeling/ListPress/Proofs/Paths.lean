import Mathlib.Data.List.Basic
import ListPress.Files.Path

/-! # Names at the end of paths

A path that was joined from a base and the name of a file ends with that name (`Path.parts_join`),
whether or not the base ends with a slash. So the name is found again (`Path.fileName?_join`), and its
extension is what follows the last dot in it (`Path.extension?_join_iff`). -/

namespace ListPress
open List

namespace Path

/-- A name that a path can end with and that leads somewhere else. -/
structure IsFileName (name : String) : Prop where
  no_slash : '/' ∉ name.toList
  ne_idle : name ≠ "" ∧ name ≠ "."
  ne_up : name ≠ ".."

theorem isFileName_append {name ending : String} (hname : '/' ∉ name.toList)
    (hending : '/' ∉ ending.toList) (hlength : 2 < ending.length) :
    IsFileName (name ++ ending) := by
  have hne (other : String) (hother : other.length ≤ 2) : name ++ ending ≠ other := by
    intro heq
    have := congrArg String.length heq
    rw [String.length_append] at this
    omega
  refine ⟨?_, ⟨hne "" (by decide), hne "." (by decide)⟩, hne ".." (by decide)⟩
  rw [String.toList_append]
  exact fun hmem => (mem_append.1 hmem).elim hname hending

theorem addChar_append (c : Char) {parts : List (List Char)} (hne : parts ≠ [])
    (more : List (List Char)) : addChar c (parts ++ more) = addChar c parts ++ more := by
  obtain ⟨part, parts, rfl⟩ := exists_cons_of_ne_nil hne
  unfold addChar
  split <;> rfl

theorem addChar_ne_nil (c : Char) (parts : List (List Char)) : addChar c parts ≠ [] := by
  unfold addChar
  split
  · exact cons_ne_nil _ _
  · cases parts <;> exact cons_ne_nil _ _

theorem foldr_addChar_append (cs : List Char) {parts : List (List Char)} (hne : parts ≠ [])
    (more : List (List Char)) :
    cs.foldr addChar (parts ++ more) = cs.foldr addChar parts ++ more := by
  induction cs with
  | nil => rfl
  | cons c cs ih =>
    have hcs : cs.foldr addChar parts ≠ [] := by
      cases cs with
      | nil => exact hne
      | cons c cs => exact addChar_ne_nil c _
    rw [foldr_cons, ih, addChar_append c hcs, foldr_cons]

theorem foldr_addChar_of_not_mem {cs : List Char} (hcs : '/' ∉ cs) :
    cs.foldr addChar [[]] = [cs] := by
  induction cs with
  | nil => rfl
  | cons c cs ih =>
    obtain ⟨hc, hcs⟩ := not_or.1 (mt mem_cons.2 hcs)
    rw [foldr_cons, ih hcs, addChar, if_neg (Ne.symm hc)]

theorem parts_slash {path name : String} (front : List Char) (hname : '/' ∉ name.toList)
    (H : path.toList = front ++ '/' :: name.toList) :
    parts path = parts (String.ofList front) ++ [name] := by
  have hlast : addChar '/' [name.toList] = [[]] ++ [name.toList] := rfl
  rw [parts, H, foldr_append, foldr_cons, foldr_addChar_of_not_mem hname, hlast,
    foldr_addChar_append front (cons_ne_nil _ _), map_append, parts, String.toList_ofList]
  simp

theorem parts_join (base : String) {name : String} (hname : '/' ∉ name.toList) :
    ∃ front, parts (join base name) = front ++ [name] := by
  have hrelative : isAbsolute name = false := by
    rw [isAbsolute, beq_eq_false_iff_ne]
    intro hhead
    exact hname (mem_of_mem_head? hhead)
  rw [join, hrelative, Bool.false_or]
  split
  · refine ⟨[], ?_⟩
    rw [parts, foldr_addChar_of_not_mem hname]
    simp
  · split
    · next hlast =>
      obtain ⟨front, hfront⟩ := getLast?_eq_some_iff.1 hlast
      refine ⟨_, parts_slash front hname ?_⟩
      rw [String.toList_append, hfront, append_assoc, singleton_append]
    · refine ⟨_, parts_slash base.toList hname ?_⟩
      rw [String.toList_append, String.toList_append, append_assoc]
      rfl

/-! ## Names and extensions -/

section
variable {path name stem ext : String}

theorem trim_append {front : List String} (hname : isIdle name = false) :
    trim (front ++ [name]) = front ++ [name] := by
  cases front with
  | nil => rfl
  | cons first front =>
    rw [cons_append, trim, reverse_append, reverse_singleton, singleton_append,
      dropWhile_cons_of_neg (by simp [hname]), reverse_cons, reverse_reverse]

theorem fileName?_of_parts {front : List String} (hname : IsFileName name)
    (H : parts path = front ++ [name]) : fileName? path = some name := by
  obtain ⟨hempty, hdot⟩ := hname.ne_idle
  have hidle : isIdle name = false := by simp [isIdle, hempty, hdot]
  rw [fileName?, H, trim_append hidle, getLast?_concat]
  split
  · next h => exact absurd (Option.some.inj h) hempty
  · next h => exact absurd (Option.some.inj h) hdot
  · next h => exact absurd (Option.some.inj h) hname.ne_up
  · next h => cases h
  · next h => exact h.symm

/-- The name of a file is found again at the end of a path that was joined from it. -/
theorem fileName?_join (base : String) (hname : IsFileName name) :
    fileName? (join base name) = some name := by
  obtain ⟨front, hparts⟩ := parts_join base hname.no_slash
  exact fileName?_of_parts hname hparts

/-- The extension is what follows the last dot of the file name, with something in front of it. -/
theorem extension?_eq_some_iff : extension? path = some ext ↔
    ∃ stem, stem ≠ "" ∧ '.' ∉ ext.toList ∧ fileName? path = some (stem ++ "." ++ ext) := by
  simp only [extension?, Option.bind_eq_bind, Option.bind_eq_some_iff]
  constructor
  · rintro ⟨name, hname, H⟩
    split at H
    · next c before hdrop =>
      cases H
      have hchars := take_append_drop (name.toList.reverse.takeWhile (· != '.')).length
        name.toList.reverse
      have hbegin := takeWhile_prefix (l := name.toList.reverse) (· != '.')
      rw [hdrop, ← prefix_iff_eq_take.1 hbegin] at hchars
      refine ⟨String.ofList (c :: before).reverse, by simp, ?_, ?_⟩
      · rw [String.toList_ofList, mem_reverse]
        intro hmem
        simpa using all_eq_true.1 all_takeWhile _ hmem
      · rw [hname, Option.some.injEq, ← String.toList_inj]
        simpa using (congrArg reverse hchars).symm
    · cases H
  · rintro ⟨stem, hstem, hext, hname⟩
    refine ⟨_, hname, ?_⟩
    have hreverse : (stem ++ "." ++ ext).toList.reverse =
        ext.toList.reverse ++ '.' :: stem.toList.reverse := by simp
    have htake : (ext.toList.reverse ++ '.' :: stem.toList.reverse).takeWhile (· != '.') =
        ext.toList.reverse := by
      rw [takeWhile_append_of_pos (by simpa using fun c hc => ne_of_mem_of_not_mem hc hext)]
      simp
    obtain ⟨c, before, hbefore⟩ := exists_cons_of_ne_nil (l := stem.toList.reverse) (by simpa)
    rw [hreverse, htake, drop_left, hbefore]
    simp

/-- The extension of a file `stem.ext`, and no other name has that extension. -/
theorem extension?_join_iff (base : String) (hname : IsFileName name) :
    extension? (join base name) = some ext ↔
      ∃ stem, stem ≠ "" ∧ '.' ∉ ext.toList ∧ name = stem ++ "." ++ ext := by
  rw [extension?_eq_some_iff, fileName?_join base hname]
  simp only [Option.some.injEq]

end

end Path
end ListPress
