/-! # Tables

Values under names, in the order of the names. Strings are ordered by their characters, which is the
order of their UTF-8 bytes. A table is determined by its look-ups. -/

namespace ListPress

/-- Put a value under a name into a sorted list of entries, in place of an earlier one. -/
def insertEntry (name : String) (value : α) : List (String × α) → List (String × α)
  | [] => [(name, value)]
  | entry :: entries =>
    if name < entry.1 then (name, value) :: entry :: entries
    else if name = entry.1 then (name, value) :: entries
    else entry :: insertEntry name value entries

theorem mem_insertEntry {name : String} {value : α} {entries : List (String × α)}
    {entry : String × α} (H : entry ∈ insertEntry name value entries) :
    entry = (name, value) ∨ entry ∈ entries := by
  induction entries with
  | nil => simpa [insertEntry] using H
  | cons first entries ih =>
    unfold insertEntry at H
    split at H
    · simpa using H
    · split at H
      · simp only [List.mem_cons] at H ⊢
        exact H.imp_right .inr
      · simp only [List.mem_cons] at H ⊢
        rcases H with H | H
        · exact .inr (.inl H)
        · exact (ih H).imp_right .inr

theorem insertEntry_sorted {entries : List (String × α)} (name : String) (value : α)
    (H : entries.Pairwise (·.1 < ·.1)) :
    (insertEntry name value entries).Pairwise (·.1 < ·.1) := by
  induction entries with
  | nil => simp [insertEntry]
  | cons first entries ih =>
    have hfirst := (List.pairwise_cons.1 H).1
    unfold insertEntry
    split
    · next hlt =>
      refine List.pairwise_cons.2 ⟨fun entry hentry => ?_, H⟩
      rcases List.mem_cons.1 hentry with rfl | hentry
      · exact hlt
      · exact String.lt_trans hlt (hfirst entry hentry)
    · split
      · next heq =>
        refine List.pairwise_cons.2 ⟨fun entry hentry => ?_, (List.pairwise_cons.1 H).2⟩
        exact heq ▸ hfirst entry hentry
      · next hlt hne =>
        refine List.pairwise_cons.2 ⟨fun entry hentry => ?_, ih (List.pairwise_cons.1 H).2⟩
        rcases mem_insertEntry hentry with rfl | hentry
        · exact Std.lt_of_le_of_ne (String.not_lt.1 hlt) (Ne.symm hne)
        · exact hfirst entry hentry

theorem lookup_entry_cons (name : String) (value : α) (entries : List (String × α))
    (key : String) : ((name, value) :: entries).lookup key =
      if key = name then some value else entries.lookup key := by
  by_cases hkey : key = name
  · subst hkey
    simp
  · simp only [List.lookup_cons, beq_false_of_ne hkey, if_neg hkey]

theorem lookup_insertEntry (name : String) (value : α) (entries : List (String × α))
    (key : String) : (insertEntry name value entries).lookup key =
      if key = name then some value else entries.lookup key := by
  induction entries with
  | nil => exact lookup_entry_cons name value [] key
  | cons first entries ih =>
    unfold insertEntry
    split
    · exact lookup_entry_cons name value _ key
    · split
      · next heq =>
        rw [lookup_entry_cons, lookup_entry_cons first.1 first.2, ← heq]
        split <;> rfl
      · next hne =>
        rw [lookup_entry_cons first.1 first.2, ih, lookup_entry_cons first.1 first.2]
        by_cases hfirst : key = first.1
        · have hkey : key ≠ name := fun hkey => hne (hkey.symm.trans hfirst)
          rw [if_pos hfirst, if_neg hkey, if_pos hfirst]
        · rw [if_neg hfirst, if_neg hfirst]

theorem lookup_eq_none_of_lt {entries : List (String × α)} {key : String}
    (H : ∀ entry ∈ entries, key < entry.1) : entries.lookup key = none := by
  induction entries with
  | nil => rfl
  | cons first entries ih =>
    obtain ⟨hfirst, H⟩ := List.forall_mem_cons.1 H
    rw [lookup_entry_cons first.1 first.2, if_neg (Std.ne_of_lt hfirst), ih H]

/-- No name in sorted entries is less than the first one. -/
theorem first_le_of_lookup {entries : List (String × α)} {first : String × α} {key : String}
    {value : α} (hsorted : (first :: entries).Pairwise (·.1 < ·.1))
    (H : (first :: entries).lookup key = some value) : first.1 ≤ key := by
  apply String.not_lt.1
  intro hlt
  have hentries := (List.pairwise_cons.1 hsorted).1
  rw [lookup_eq_none_of_lt (List.forall_mem_cons.2
    ⟨hlt, fun entry hentry => String.lt_trans hlt (hentries entry hentry)⟩)] at H
  cases H

theorem lookup_first (entry : String × α) (entries : List (String × α)) :
    (entry :: entries).lookup entry.1 = some entry.2 := by
  rw [lookup_entry_cons entry.1 entry.2, if_pos rfl]

/-- Sorted entries are determined by their look-ups. -/
theorem eq_of_lookup_eq {xs ys : List (String × α)} (hxs : xs.Pairwise (·.1 < ·.1))
    (hys : ys.Pairwise (·.1 < ·.1)) (H : ∀ key, xs.lookup key = ys.lookup key) : xs = ys := by
  induction xs generalizing ys with
  | nil =>
    cases ys with
    | nil => rfl
    | cons y ys => cases (H y.1).trans (lookup_first y ys)
  | cons x xs ih =>
    have hx := lookup_first x xs
    rw [H] at hx
    cases ys with
    | nil => cases hx
    | cons y ys =>
      have hy := lookup_first y ys
      rw [← H] at hy
      have hname : x.1 = y.1 :=
        Std.le_antisymm (first_le_of_lookup hxs hy) (first_le_of_lookup hys hx)
      have hvalue : x.2 = y.2 := by
        rw [hname, lookup_first] at hx
        exact (Option.some.inj hx).symm
      obtain ⟨hxfirst, hxs⟩ := List.pairwise_cons.1 hxs
      obtain ⟨hyfirst, hys⟩ := List.pairwise_cons.1 hys
      have hrest : xs = ys := by
        refine ih hxs hys fun key => ?_
        by_cases hkey : key = x.1
        · rw [hkey, lookup_eq_none_of_lt hxfirst, hname, lookup_eq_none_of_lt hyfirst]
        · have heq := H key
          rwa [lookup_entry_cons x.1 x.2, lookup_entry_cons y.1 y.2, if_neg hkey,
            if_neg (hname ▸ hkey)] at heq
      rw [Prod.ext hname hvalue, hrest]

structure Table (α : Type) where
  entries : List (String × α)
  sorted : entries.Pairwise (·.1 < ·.1)
deriving DecidableEq

namespace Table

def empty : Table α := ⟨[], .nil⟩

instance : Inhabited (Table α) := ⟨empty⟩

def insert (table : Table α) (name : String) (value : α) : Table α :=
  ⟨insertEntry name value table.entries, insertEntry_sorted name value table.sorted⟩

def get? (table : Table α) (name : String) : Option α := table.entries.lookup name

def contains (table : Table α) (name : String) : Bool := (table.get? name).isSome

def names (table : Table α) : List String := table.entries.map (·.1)

def size (table : Table α) : Nat := table.entries.length

def isEmpty (table : Table α) : Bool := table.entries.isEmpty

/-- Later pairs replace earlier ones of the same name. -/
def insertAll (table : Table α) (pairs : List (String × α)) : Table α :=
  pairs.foldl (fun table (name, value) => table.insert name value) table

def ofList (pairs : List (String × α)) : Table α := empty.insertAll pairs

theorem get?_insert (table : Table α) (name : String) (value : α) (key : String) :
    (table.insert name value).get? key = if key = name then some value else table.get? key :=
  lookup_insertEntry name value table.entries key

theorem ext_get? {table table' : Table α} (H : ∀ key, table.get? key = table'.get? key) :
    table = table' := by
  obtain ⟨entries, hsorted⟩ := table
  obtain ⟨entries', hsorted'⟩ := table'
  have heq : entries = entries' := eq_of_lookup_eq hsorted hsorted' H
  subst heq
  rfl

theorem get?_eq_some_iff {table : Table α} {name : String} {value : α} :
    table.get? name = some value ↔ (name, value) ∈ table.entries := by
  rw [get?, List.lookup_eq_some_iff]
  constructor
  · rintro ⟨before, after, heq, -⟩
    rw [heq]
    exact List.mem_append_right before List.mem_cons_self
  · intro hmem
    obtain ⟨before, after, heq⟩ := List.append_of_mem hmem
    have hsorted := table.sorted
    rw [heq, List.pairwise_append] at hsorted
    refine ⟨before, after, heq, fun entry hentry => ?_⟩
    have hlt := hsorted.2.2 entry hentry (name, value) List.mem_cons_self
    exact bne_iff_ne.2 (Std.ne_of_lt hlt).symm

theorem get?_insertAll {pairs : List (String × α)} (hsorted : pairs.Pairwise (·.1 < ·.1))
    (table : Table α) (key : String) :
    (table.insertAll pairs).get? key = (pairs.lookup key).or (table.get? key) := by
  induction pairs generalizing table with
  | nil => rfl
  | cons first pairs ih =>
    obtain ⟨hfirst, hsorted⟩ := List.pairwise_cons.1 hsorted
    have hrest := ih hsorted (table.insert first.1 first.2)
    rw [get?_insert] at hrest
    refine hrest.trans ?_
    rw [lookup_entry_cons first.1 first.2]
    by_cases hkey : key = first.1
    · rw [if_pos hkey, if_pos hkey, hkey, lookup_eq_none_of_lt hfirst]
      rfl
    · rw [if_neg hkey, if_neg hkey]

end Table
end ListPress
