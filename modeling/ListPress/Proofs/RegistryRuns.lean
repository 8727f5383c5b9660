import Mathlib.Data.List.Dedup
import Mathlib.Data.List.Induction
import ListPress.Registry

/-! # Runs of registrations

A registry shows which names were registered and the last text of each of them, and nothing else of
the calls that made it (`Registry.Records`). So it does not depend on their order or on the texts
that were replaced (`Registry.run_canonical`). Its names are in the order of their characters, which
is the order of their UTF-8 bytes (`lt_iff_utf8Bytes_lt`). -/

namespace ListPress
open List

/-! ## The order of the bytes -/

def utf8Bytes (text : String) : List UInt8 := text.toUTF8.data.toList

theorem utf8Bytes_eq (text : String) :
    utf8Bytes text = text.toList.flatMap String.utf8EncodeChar := by
  obtain ⟨cs, rfl⟩ : ∃ cs, text = String.ofList cs := ⟨text.toList, String.ofList_toList.symm⟩
  rw [utf8Bytes, String.toUTF8, String.toByteArray_ofList, String.toList_ofList, utf8Encode,
    data_toByteArray]

theorem byte_lt_iff {m n : Nat} (hm : m < 256) (hn : n < 256) :
    UInt8.ofNat m < UInt8.ofNat n ↔ m < n := by
  rw [UInt8.lt_iff_toNat_lt, UInt8.toNat_ofNat_of_lt' hm, UInt8.toNat_ofNat_of_lt' hn]

theorem byte_eq_iff {m n : Nat} (hm : m < 256) (hn : n < 256) :
    UInt8.ofNat m = UInt8.ofNat n ↔ m = n := by
  rw [← UInt8.toNat_inj, UInt8.toNat_ofNat_of_lt' hm, UInt8.toNat_ofNat_of_lt' hn]

/-- The encodings of two characters differ in a byte of both, whatever follows them. -/
theorem utf8EncodeChar_append_lt {c d : Char} (H : c < d) (xs ys : List UInt8) :
    String.utf8EncodeChar c ++ xs < String.utf8EncodeChar d ++ ys := by
  have hval : c.val.toNat < d.val.toNat := H
  have hmax : d.val.toNat < 0x110000 := by
    have hvalid := d.valid
    rw [UInt32.isValidChar, Nat.isValidChar] at hvalid
    omega
  have htwo (v : Nat) : v / 4096 = v / 64 / 64 := by omega
  have hthree (v : Nat) : v / 262144 = v / 64 / 64 / 64 := by omega
  unfold String.utf8EncodeChar
  generalize c.val.toNat = m at *
  generalize d.val.toNat = n at *
  -- the leading bytes are in order where the lengths differ, else the digits to base 64 decide
  dsimp only
  split_ifs <;>
    simp (disch := omega) only [cons_append, nil_append, cons_lt_cons_iff, byte_lt_iff,
      byte_eq_iff, htwo, hthree] <;>
    omega

theorem flatMap_utf8EncodeChar_lt {cs ds : List Char} (H : cs < ds) :
    cs.flatMap String.utf8EncodeChar < ds.flatMap String.utf8EncodeChar := by
  induction cs generalizing ds with
  | nil =>
    cases ds with
    | nil => exact absurd H (List.lt_irrefl [])
    | cons d ds =>
      have hne : (d :: ds).flatMap String.utf8EncodeChar ≠ [] := by
        rw [flatMap_cons]
        exact append_ne_nil_of_left_ne_nil String.utf8EncodeChar_ne_nil _
      obtain ⟨x, xs, hxs⟩ := exists_cons_of_ne_nil hne
      rw [hxs]
      exact nil_lt_cons x xs
  | cons c cs ih =>
    cases ds with
    | nil => exact absurd H (List.not_lt_nil _)
    | cons d ds =>
      rw [flatMap_cons, flatMap_cons]
      rcases cons_lt_cons_iff.1 H with hlt | ⟨rfl, hlt⟩
      · exact utf8EncodeChar_append_lt hlt _ _
      · exact append_left_lt (ih hlt)

/-- Texts are in the order of their bytes. -/
theorem lt_iff_utf8Bytes_lt {s t : String} : s < t ↔ utf8Bytes s < utf8Bytes t := by
  have hmono {s t : String} (H : s < t) : utf8Bytes s < utf8Bytes t := by
    rw [utf8Bytes_eq, utf8Bytes_eq]
    exact flatMap_utf8EncodeChar_lt H
  constructor
  · exact hmono
  · intro H
    by_contra hle
    rcases eq_or_ne s t with rfl | hne
    · exact List.lt_irrefl _ H
    · exact List.lt_asymm H (hmono (Std.lt_of_le_of_ne (String.not_lt.1 hle) hne.symm))

/-! ## Names of a table -/

namespace Table
variable {table : Table α} {name : String}

theorem mem_names_iff : name ∈ table.names ↔ ∃ value, table.get? name = some value := by
  simp only [names, mem_map, get?_eq_some_iff]
  constructor
  · rintro ⟨⟨_, value⟩, hmem, rfl⟩
    exact ⟨value, hmem⟩
  · rintro ⟨value, hmem⟩
    exact ⟨(name, value), hmem, rfl⟩

theorem names_sorted (table : Table α) : table.names.Pairwise (· < ·) :=
  pairwise_map.2 table.sorted

end Table

/-! ## Calls -/

namespace Registry

/-- The registry after names with texts were registered in a new one, one after the other. -/
def run (kind : String) (calls : List (String × String)) : Registry :=
  calls.foldl (fun registry call => registry.register call.1 call.2) (empty kind)

/-- The last call for the name registers the text. -/
def LastText (calls : List (String × String)) (name text : String) : Prop :=
  ∃ before after, calls = before ++ (name, text) :: after ∧ ∀ call ∈ after, call.1 ≠ name

/-- What a registry shows is the calls' names and the last text of each. -/
structure Records (registry : Registry) (calls : List (String × String)) : Prop where
  sorted : registry.names.Pairwise (utf8Bytes · < utf8Bytes ·)
  nodup : registry.names.Nodup
  names : ∀ name, name ∈ registry.names ↔ name ∈ calls.map (·.1)
  size : registry.size = (calls.map (·.1)).dedup.length
  contains : ∀ name, registry.contains name ↔ name ∈ registry.names
  get : ∀ name text, registry.get name = .ok text ↔ LastText calls name text
  missing : ∀ name e, registry.get name = .error e ↔
    name ∉ registry.names ∧ e = .notFound registry.kind name
  entries : ∀ name text, (name, text) ∈ registry.entries ↔ LastText calls name text
  entries_names : registry.entries.map (·.1) = registry.names

variable {registry registry' : Registry} {kind name text : String}
  {calls calls' : List (String × String)}

theorem lastText_iff : LastText calls name text ↔ calls.reverse.lookup name = some text := by
  rw [lookup_eq_some_iff]
  constructor
  · rintro ⟨before, after, rfl, hafter⟩
    refine ⟨after.reverse, before.reverse, by simp, fun call hcall => ?_⟩
    exact bne_iff_ne.2 (hafter call (mem_reverse.1 hcall)).symm
  · rintro ⟨after, before, hcalls, hafter⟩
    refine ⟨before.reverse, after.reverse, ?_, fun call hcall => ?_⟩
    · rw [← reverse_reverse calls, hcalls]
      simp
    · exact (bne_iff_ne.1 (hafter call (mem_reverse.1 hcall))).symm

theorem mem_names_iff_lastText : name ∈ calls.map (·.1) ↔ ∃ text, LastText calls name text := by
  simp only [lastText_iff]
  rw [← Option.isSome_iff_exists, lookup_isSome_iff]
  simp only [mem_reverse, mem_map, beq_iff_eq, @eq_comm _ name]

/-! ## What a run leaves -/

theorem run_concat (kind : String) (calls : List (String × String)) (call : String × String) :
    run kind (calls ++ [call]) = (run kind calls).register call.1 call.2 := by
  rw [run, foldl_append]
  rfl

theorem get?_register (key : String) : (registry.register name text).texts.get? key =
    if key = name then some text else registry.texts.get? key :=
  registry.texts.get?_insert name text key

theorem get?_run (kind : String) (calls : List (String × String)) (name : String) :
    (run kind calls).texts.get? name = calls.reverse.lookup name := by
  induction calls using reverseRecOn with
  | nil => rfl
  | append_singleton calls call ih =>
    rw [run_concat, get?_register, ih, reverse_concat, lookup_entry_cons call.1 call.2]

theorem kind_run (kind : String) (calls : List (String × String)) :
    (run kind calls).kind = kind := by
  induction calls using reverseRecOn with
  | nil => rfl
  | append_singleton calls call ih =>
    rw [run_concat]
    exact ih

theorem records_of_get? (H : ∀ name, registry.texts.get? name = calls.reverse.lookup name) :
    registry.Records calls := by
  have hlast (name text : String) :
      registry.texts.get? name = some text ↔ LastText calls name text := by
    rw [H, lastText_iff]
  have hnames (name : String) : name ∈ registry.names ↔ name ∈ calls.map (·.1) := by
    rw [names, Table.mem_names_iff, mem_names_iff_lastText]
    simp only [hlast]
  have hsorted := registry.texts.names_sorted
  have hnodup : registry.names.Nodup := hsorted.imp Std.ne_of_lt
  refine ⟨hsorted.imp lt_iff_utf8Bytes_lt.1, hnodup, hnames, ?_, fun name => ?_,
    fun name text => ?_, fun name e => ?_, fun name text => ?_, rfl⟩
  · have hperm : registry.names.Perm (calls.map (·.1)).dedup := by
      rw [perm_ext_iff_of_nodup hnodup (nodup_dedup _)]
      intro name
      rw [hnames, mem_dedup]
    rw [← hperm.length_eq, names, Table.names, length_map]
    rfl
  · rw [names, Table.mem_names_iff, ← Option.isSome_iff_exists]
    rfl
  · rw [get_eq_ok_iff, hlast]
  · rw [get_eq_error_iff, names, Table.mem_names_iff, ← Option.isSome_iff_exists,
      Option.not_isSome_iff_eq_none]
  · rw [← hlast, Table.get?_eq_some_iff]
    rfl

/-- A registry is determined by what it records. -/
theorem Records.eq_of_same (H : registry.Records calls) (H' : registry'.Records calls')
    (hnames : ∀ name, name ∈ calls.map (·.1) ↔ name ∈ calls'.map (·.1))
    (htexts : ∀ name text text', LastText calls name text → LastText calls' name text' →
      text = text') : registry.texts = registry'.texts := by
  apply Table.ext_get?
  intro name
  apply Option.ext
  intro text
  rw [← get_eq_ok_iff, ← get_eq_ok_iff, H.get, H'.get]
  constructor
  · intro hlast
    obtain ⟨text', hlast'⟩ :=
      mem_names_iff_lastText.1 ((hnames name).1 (mem_names_iff_lastText.2 ⟨text, hlast⟩))
    rwa [htexts name text text' hlast hlast']
  · intro hlast'
    obtain ⟨text', hlast⟩ :=
      mem_names_iff_lastText.1 ((hnames name).2 (mem_names_iff_lastText.2 ⟨text, hlast'⟩))
    rwa [← htexts name text' text hlast hlast']

/-- A registry shows the names that were registered in it, in the order of their bytes, and the last
text of each. Calls with the same names and the same last texts cannot be told apart, whatever their
order is and whatever was replaced. -/
theorem run_canonical (kind : String) (calls : List (String × String)) :
    (run kind calls).kind = kind ∧ (run kind calls).Records calls ∧
    ∀ kind' calls', (∀ name, name ∈ calls.map (·.1) ↔ name ∈ calls'.map (·.1)) →
      (∀ name text text', LastText calls name text → LastText calls' name text' → text = text') →
      (run kind calls).names = (run kind' calls').names ∧
      (run kind calls).entries = (run kind' calls').entries ∧
      (run kind calls).size = (run kind' calls').size := by
  have hrecords := records_of_get? (get?_run kind calls)
  refine ⟨kind_run kind calls, hrecords, fun kind' calls' hnames htexts => ?_⟩
  have heq := hrecords.eq_of_same (records_of_get? (get?_run kind' calls')) hnames htexts
  rw [names, names, entries, entries, size, size, heq]
  exact ⟨rfl, rfl, rfl⟩

/-- The names have characters of one, three and four bytes. -/
theorem run_canonical_replaced :
    let calls := [("😀", "a"), ("z", "b"), ("ﬀ", "c"), ("z", "d")]
    let calls' := [("z", "d"), ("ﬀ", "e"), ("ﬀ", "c"), ("😀", "a")]
    (run "style" calls).names = ["z", "ﬀ", "😀"] ∧
      (run "style" calls).entries = (run "template" calls').entries := by
  intro calls calls'
  refine ⟨by decide +kernel, ((run_canonical "style" calls).2.2 "template" calls' ?_ ?_).2.1⟩
  · intro name
    simp only [calls, calls', map_cons, map_nil, mem_cons, not_mem_nil, or_false]
    tauto
  · intro name text text' hlast hlast'
    rw [lastText_iff] at hlast hlast'
    simp only [calls, calls', reverse_cons, reverse_nil, nil_append, cons_append,
      lookup_entry_cons] at hlast hlast'
    grind

end Registry
end ListPress
