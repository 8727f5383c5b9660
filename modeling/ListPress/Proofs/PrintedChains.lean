import ListPress.Node.Printer
import ListPress.Proofs.Chains

/-! # Printed chains

The walk that collects the items of a chain and the loop that prints it stop at the same cell, in any
heap: a chain that is not too long is printed to its end, and any other up to the limit
(`Heap.chain_walked_to_limit`). -/

namespace ListPress
open List

namespace Heap

variable {h : Heap} {m ending : Node} {id : Nat} {ids : List Nat}

/-- The entries of a chain as they are printed, with what is written behind the last one. -/
def entriesText (h : Heap) (levels : Nat) (ids : List Nat) (behind : String) : String :=
  "(" ++ " ".intercalate (ids.map fun c => h.printAt levels (h.head c)) ++ behind ++ ")"

theorem Ends.printAt_eq (H : h.Ends (.cell id) ids ending) (hle : ids.length ≤ maxChain)
    (levels : Nat) : h.printAt (levels + 1) (.cell id) =
      h.entriesText levels ids (h.endingText levels ending) := by
  rw [printAt_cell, chain, H.walk_eq hle, map_map]
  cases ending with
  | cell c => exact absurd rfl (H.ending c)
  | atom | list | nil => rfl

theorem Leads.printAt_eq {c : Nat} (H : h.Leads (.cell id) ids (.cell c))
    (hlength : ids.length = maxChain) (levels : Nat) :
    h.printAt (levels + 1) (.cell id) = h.entriesText levels ids " ..." := by
  rw [printAt_cell, chain, ← hlength, H.walk_length_eq, map_map]
  rfl

theorem Leads.headOf_eq (H : h.Leads (.cell id) ids m) (hids : ids ≠ []) :
    h.headOf (.cell id) = (ids.map h.head).head? := by
  cases H with
  | stay => exact absurd rfl hids
  | cell => rfl

/-- In any heap the items of a cell are the heads of the cells that are met from there on, if these
are at most 65536, and otherwise the chain is too long. Where there are items the printer writes an
entry for each of them and then the end of the chain, and otherwise the first 65536 entries and
`...`. The head is always the first one. -/
theorem chain_walked_to_limit (h : Heap) (id : Nat) :
    ((∃ xs, h.sequence (.cell id) = .ok xs) ↔
      ∃ ids ending, h.Ends (.cell id) ids ending ∧ ids.length ≤ 65536) ∧
    (∀ ids ending, h.Ends (.cell id) ids ending → ids.length ≤ 65536 →
      h.sequence (.cell id) = .ok (ids.map h.head) ∧
      h.print (.cell id) = h.entriesText maxNesting ids (h.endingText maxNesting ending)) ∧
    ((¬ ∃ ids ending, h.Ends (.cell id) ids ending ∧ ids.length ≤ 65536) →
      h.sequence (.cell id) = .error .chainTooLong ∧
      ∃ ids c, h.Leads (.cell id) ids (.cell c) ∧ ids.length = 65536 ∧
        h.print (.cell id) = h.entriesText maxNesting ids " ...") ∧
    ∀ ids m, h.Leads (.cell id) ids m → ids ≠ [] →
      h.headOf (.cell id) = (ids.map h.head).head? := by
  have hlong (H : ¬ ∃ ids ending, h.Ends (.cell id) ids ending ∧ ids.length ≤ 65536) :
      ∃ ids c, h.Leads (.cell id) ids (.cell c) ∧ ids.length = maxChain :=
    (h.ends_or_leads maxChain (.cell id)).resolve_left H
  refine ⟨⟨?_, ?_⟩, fun ids ending H hle => ⟨H.sequence_eq hle, H.printAt_eq hle _⟩, fun H => ?_,
    fun ids m => Leads.headOf_eq⟩
  · rintro ⟨xs, hxs⟩
    by_contra H
    obtain ⟨ids, c, hleads, hlength⟩ := hlong H
    cases hxs.symm.trans (hleads.sequence_eq hlength)
  · rintro ⟨ids, ending, H, hle⟩
    exact ⟨_, H.sequence_eq hle⟩
  · obtain ⟨ids, c, hleads, hlength⟩ := hlong H
    exact ⟨hleads.sequence_eq hlength, ids, c, hleads, hlength, hleads.printAt_eq hlength _⟩

/-- Cells in a row, `n` of them behind the first one. -/
def row (n : Nat) : Heap :=
  ⟨Array.ofFn fun i : Fin (n + 1) => ⟨.nil, if i.val = n then .nil else .cell (i.val + 1)⟩⟩

theorem tail_row {n i : Nat} (hi : i ≤ n) :
    (row n).tail i = if i = n then .nil else .cell (i + 1) := by
  simp [row, tail, cell, Nat.lt_succ_of_le hi]

theorem row_leads {n i k : Nat} (hk : i + k = n) :
    (row n).Leads (.cell i) (range' i (k + 1)) .nil := by
  induction k generalizing i with
  | zero =>
    apply Leads.cell
    rw [Nat.add_zero] at hk
    rw [tail_row (Nat.le_of_eq hk), if_pos hk]
    exact .stay
  | succ k ih =>
    apply Leads.cell
    rw [tail_row (by omega), if_neg (by omega)]
    exact ih (by omega)

/-- One cell more than can be walked, and the chain behind the first one, which just fits. -/
theorem chain_walked_to_limit_row :
    (∃ xs, (row 65536).sequence (.cell 1) = .ok xs ∧ xs.length = 65536) ∧
      (row 65536).sequence (.cell 0) = .error .chainTooLong := by
  have hfits : (row 65536).Ends (.cell 1) (range' 1 65536) .nil :=
    ⟨row_leads (k := 65535) rfl, by simp⟩
  have hlong : (row 65536).Ends (.cell 0) (range' 0 65537) .nil :=
    ⟨row_leads (k := 65536) rfl, by simp⟩
  refine ⟨⟨_, ((chain_walked_to_limit _ 1).2.1 _ _ hfits (Nat.le_of_eq length_range')).1, ?_⟩,
    ((chain_walked_to_limit _ 0).2.2.1 ?_).1⟩
  · rw [length_map, length_range']
  · rintro ⟨ids, ending, H, hle⟩
    have hlength := congrArg length (hlong.heads.unique H.heads)
    rw [length_map, length_map, length_range'] at hlength
    omega

end Heap
end ListPress
