import ListPress.Files.Volume
import ListPress.Proofs.Paths
import ListPress.Proofs.Traversal

/-! # What file operations change

A volume is seen through the files at its places (`Volume.file?`). To write a file changes the file
at one place and keeps all directories; to make directories changes no file. Since places on the way
have to be directories, a path that leads somewhere leads there still (`Volume.locate_mono`). -/

namespace ListPress
open List

/-! ## Paths in a directory -/

namespace Volume

/-! ## Entries -/

/-- The contents of the file at a place. -/
def file? (volume : Volume) (place : Place) : Option ByteArray :=
  match volume.get? place with
  | some (.file bytes) => some bytes
  | _ => none

section
variable {volume volume' : Volume} {place q : Place} {entry : Entry} {bytes : ByteArray}

theorem file?_eq_some_iff : volume.file? place = some bytes ↔
    volume.get? place = some (.file bytes) := by
  rw [file?]
  rcases volume.get? place with _ | ⟨_ | _⟩ <;> simp

theorem file?_congr (H : volume.get? place = volume'.get? place) :
    volume.file? place = volume'.file? place := by
  rw [file?, file?, H]

theorem lookup_filter_ne (entries : List (Place × Entry)) (place q : Place) :
    (entries.filter (·.1 != place)).lookup q = if q = place then none else entries.lookup q := by
  induction entries with
  | nil => simp
  | cons first entries ih =>
    rw [filter_cons, lookup_cons]
    by_cases hfirst : first.1 = place
    · rw [if_neg (by simp [hfirst]), ih, hfirst]
      by_cases hq : q = place
      · rw [if_pos hq, if_pos hq]
      · rw [if_neg hq, if_neg hq, beq_false_of_ne hq]
    · rw [if_pos (by simpa using hfirst), lookup_cons, ih]
      by_cases hq : q = first.1
      · simp [hq, hfirst]
      · rw [beq_false_of_ne hq]

theorem get?_put (hplace : volume.get? place ≠ some .directory) :
    (volume.put place entry).get? q = if q = place then some entry else volume.get? q := by
  have habove : ¬ place.isAbove := by
    intro h
    rw [get?, if_pos h] at hplace
    exact hplace rfl
  rw [get?, get?, put, lookup_append, lookup_filter_ne]
  by_cases hq : q = place
  · subst hq
    simp [habove]
  · simp [hq, lookup_cons, beq_false_of_ne hq]

/-- All directories of one volume are directories of the other. -/
def KeepsDirs (volume volume' : Volume) : Prop :=
  ∀ place, volume.get? place = some .directory → volume'.get? place = some .directory

/-- Only directories were added. -/
structure AddsDirs (volume volume' : Volume) : Prop where
  keeps : volume.KeepsDirs volume'
  file?_eq : ∀ place, volume'.file? place = volume.file? place

theorem KeepsDirs.trans {volume'' : Volume} (H : volume.KeepsDirs volume')
    (H' : volume'.KeepsDirs volume'') : volume.KeepsDirs volume'' :=
  fun place hplace => H' place (H place hplace)

theorem AddsDirs.refl (volume : Volume) : volume.AddsDirs volume :=
  ⟨fun _ hplace => hplace, fun _ => rfl⟩

theorem AddsDirs.trans {volume'' : Volume} (H : volume.AddsDirs volume')
    (H' : volume'.AddsDirs volume'') : volume.AddsDirs volume'' :=
  ⟨H.keeps.trans H'.keeps, fun place => (H'.file?_eq place).trans (H.file?_eq place)⟩

theorem keepsDirs_put (hplace : volume.get? place ≠ some .directory) (entry : Entry) :
    volume.KeepsDirs (volume.put place entry) := by
  intro q hq
  rw [get?_put hplace, if_neg, hq]
  intro heq
  exact hplace (heq ▸ hq)

theorem file?_put (hplace : volume.get? place ≠ some .directory) (bytes : ByteArray) (q : Place) :
    (volume.put place (.file bytes)).file? q =
      if q = place then some bytes else volume.file? q := by
  by_cases hq : q = place
  · rw [if_pos hq, file?_eq_some_iff, get?_put hplace, if_pos hq]
  · rw [if_neg hq]
    apply file?_congr
    rw [get?_put hplace, if_neg hq]

theorem addsDirs_put (hplace : volume.get? place = none) :
    volume.AddsDirs (volume.put place .directory) := by
  have hdirectory : volume.get? place ≠ some .directory := by simp [hplace]
  refine ⟨keepsDirs_put hdirectory .directory, fun q => ?_⟩
  by_cases hq : q = place
  · rw [file?, file?, get?_put hdirectory, if_pos hq, hq, hplace]
  · apply file?_congr
    rw [get?_put hdirectory, if_neg hq]

end

/-! ## Following paths -/

section
variable {volume volume' : Volume} {place q q' : Place} {part path : String} {parts : List String}

theorem enter_eq_ok_iff : volume.enter place = .ok () ↔ volume.get? place = some .directory := by
  rw [enter]
  rcases volume.get? place with _ | ⟨_ | _⟩ <;> simp

theorem walk_cons_eq_ok_iff : volume.walk place (part :: parts) = .ok q ↔
    volume.get? place = some .directory ∧
      ∃ next, place.follow part = .ok next ∧ volume.walk next parts = .ok q := by
  rw [walk, foldlM_cons, bind_eq_ok_iff]
  simp only [bind_eq_ok_iff]
  constructor
  · rintro ⟨next, ⟨⟨⟩, henter, hfollow⟩, hwalk⟩
    exact ⟨enter_eq_ok_iff.1 henter, next, hfollow, hwalk⟩
  · rintro ⟨hplace, next, hfollow, hwalk⟩
    exact ⟨next, ⟨(), enter_eq_ok_iff.2 hplace, hfollow⟩, hwalk⟩

theorem walk_mono (H : volume.KeepsDirs volume') (hwalk : volume.walk place parts = .ok q) :
    volume'.walk place parts = .ok q := by
  induction parts generalizing place with
  | nil => exact hwalk
  | cons part parts ih =>
    obtain ⟨hplace, next, hfollow, hwalk⟩ := walk_cons_eq_ok_iff.1 hwalk
    exact walk_cons_eq_ok_iff.2 ⟨H place hplace, next, hfollow, ih hwalk⟩

theorem walk_append_eq_ok_iff {more : List String} : volume.walk place (parts ++ more) = .ok q ↔
    ∃ mid, volume.walk place parts = .ok mid ∧ volume.walk mid more = .ok q := by
  rw [walk, foldlM_append, bind_eq_ok_iff]
  rfl

theorem locate_eq_ok_iff : volume.locate path = .ok q ↔
    ∃ first, start path = .ok first ∧ volume.walk first.1 first.2 = .ok q :=
  bind_eq_ok_iff

/-- A path leads to the same place when there are more directories. -/
theorem locate_mono (H : volume.KeepsDirs volume') (hlocate : volume.locate path = .ok q) :
    volume'.locate path = .ok q := by
  obtain ⟨first, hstart, hwalk⟩ := locate_eq_ok_iff.1 hlocate
  exact locate_eq_ok_iff.2 ⟨first, hstart, walk_mono H hwalk⟩

theorem start_eq_ok {first : Place × List String} (H : start path = .ok first) :
    first.2 = Path.parts path := by
  rw [start] at H
  split at H
  · cases H
  · split at H
    · cases H
    · split at H
      · cases H
      · cases H
        rfl

theorem follow_eq_ok {name : String} (hname : Path.IsFileName name)
    (H : place.follow name = .ok q) : q = place ++ [name] := by
  rw [Place.follow, if_neg (not_or.2 hname.ne_idle), if_neg hname.ne_up] at H
  split at H
  · cases H
  · cases H
    rfl

/-- The place of a file in a directory ends with its name. -/
theorem getLast?_of_locate {dir name : String} (hname : Path.IsFileName name)
    (H : volume.locate (Path.join dir name) = .ok q) : q.getLast? = some name := by
  obtain ⟨first, hstart, hwalk⟩ := locate_eq_ok_iff.1 H
  obtain ⟨front, hparts⟩ := Path.parts_join dir hname.no_slash
  rw [start_eq_ok hstart, hparts] at hwalk
  obtain ⟨mid, -, hwalk⟩ := walk_append_eq_ok_iff.1 hwalk
  obtain ⟨-, next, hfollow, hwalk⟩ := walk_cons_eq_ok_iff.1 hwalk
  cases hwalk
  rw [follow_eq_ok hname hfollow, getLast?_concat]

/-! ## Writing and reading -/

theorem writeText_eq_ok_iff {text : String} : volume.writeText path text = .ok volume' ↔
    ∃ place, volume.locate path = .ok place ∧ volume.get? place ≠ some .directory ∧
      volume' = volume.put place (.file text.toUTF8) := by
  rw [writeText, bind_eq_ok_iff]
  constructor
  · rintro ⟨place, hlocate, H⟩
    split at H
    · cases H
    · next hplace =>
      cases H
      exact ⟨place, hlocate, hplace, rfl⟩
  · rintro ⟨place, hlocate, hplace, rfl⟩
    refine ⟨place, hlocate, ?_⟩
    split
    · next hdirectory => exact absurd hdirectory hplace
    · rfl

theorem decodeText_toUTF8 (text : String) : decodeText text.toUTF8 = .ok text := by
  have hvalid : text.toUTF8.IsValidUTF8 := text.isValidUTF8
  rw [decodeText, String.fromUTF8?, dif_pos hvalid]
  rfl

theorem readText_of_file? {text : String} (hlocate : volume.locate path = .ok place)
    (hfile : volume.file? place = some text.toUTF8) : volume.readText path = .ok text := by
  have hbytes : volume.readBytes path = .ok text.toUTF8 := by
    refine bind_eq_ok_iff.2 ⟨place, hlocate, ?_⟩
    rw [file?_eq_some_iff.1 hfile]
  exact bind_eq_ok_iff.2 ⟨text.toUTF8, hbytes, decodeText_toUTF8 text⟩

/-! ## Making directories -/

theorem addsDirs_of_makeDir (H : volume.makeDir path = .ok volume') : volume.AddsDirs volume' := by
  obtain ⟨⟨first, parts⟩, -, H⟩ := bind_eq_ok_iff.1 H
  dsimp only at H
  split at H
  · cases H
  · obtain ⟨place, -, H⟩ := bind_eq_ok_iff.1 H
    obtain ⟨_, -, H⟩ := bind_eq_ok_iff.1 H
    split at H
    · cases H
    · obtain ⟨place, -, H⟩ := bind_eq_ok_iff.1 H
      split at H
      · cases H
      · next hplace =>
        cases H
        exact addsDirs_put hplace

theorem addsDirs_of_ensureDir (H : volume.ensureDir path = .ok volume') :
    volume.AddsDirs volume' := by
  rw [ensureDir] at H
  split at H
  · next hmake =>
    cases H
    exact addsDirs_of_makeDir hmake
  · split at H
    · cases H
      exact .refl volume
    · cases H

theorem addsDirs_makeDirsUp (volume : Volume) (levels : Nat) (path : String) :
    volume.AddsDirs (volume.makeDirsUp levels path).1 := by
  fun_induction makeDirsUp volume levels path with
  | case1 | case6 => exact .refl volume
  | case2 levels path hpath made hmade => exact addsDirs_of_ensureDir hmade
  | case3 path hpath levels parent hparent hmissing above e habove ih
  | case5 path hpath levels parent hparent hmissing above habove e hmade ih =>
    rw [habove] at ih
    exact ih
  | case4 path hpath levels parent hparent hmissing above habove made hmade ih =>
    rw [habove] at ih
    exact ih.trans (addsDirs_of_ensureDir hmade)

theorem addsDirs_of_makeDirs {result : Except FileError Unit}
    (H : volume.makeDirs path = (volume', result)) : volume.AddsDirs volume' := by
  have hadds := volume.addsDirs_makeDirsUp (Path.parts path).length path
  rwa [← makeDirs, H] at hadds

end
end Volume
end ListPress
