import ListPress.Node.Json
import ListPress.Proofs.Chains
import ListPress.Proofs.NearestNumber

/-! # JSON interchange

Writing a finite node as JSON and reading it back gives the node with its chains turned into array
lists and its numbers that are not finite turned into the empty node (`Heap.ofJsonAt_toJsonAt`).
Reading a JSON value fails exactly on objects that are no symbols and on values that lie too deep
(`Node.ofJsonAt_isOk_iff`), and writing the node that was read gives the value back, with its
numbers as doubles (`Heap.toJsonAt_of_ofJsonAt`). -/

namespace ListPress
open List

/-! ## JSON values -/

namespace Json

/-- `Part k e v`: the value `e` is `v` or lies inside it, `k` arrays deep. -/
inductive Part : Nat → Json → Json → Prop
  | self : Part 0 v v
  | item : x ∈ items → Part k e x → Part (k + 1) e (.array items)
  | field : (name, x) ∈ fields → Part k e x → Part k e (.object fields)

/-- The object stands for a symbol. -/
def IsSymbol (fields : List (String × Json)) : Prop := ∃ name, fields = [("symbol", .string name)]

/-- A number is an integer of 64 bits, with or without sign, or a finite double. -/
def IsNumber : Json → Prop
  | .integer n => -2 ^ 63 ≤ n ∧ n < 2 ^ 64
  | .double x => x.isFinite
  | _ => True

def WellFormed (v : Json) : Prop := ∀ k e, Part k e v → e.IsNumber

/-- The second value is the first with every number replaced by the double nearest to it. Symbols
are the only objects. -/
inductive Doubled : Json → Json → Prop
  | null : Doubled .null .null
  | bool (b : Bool) : Doubled (.bool b) (.bool b)
  | integer : Binary64.Nearest n x → Doubled (.integer n) (.double x)
  | double (x : Binary64) : Doubled (.double x) (.double x)
  | string (text : String) : Doubled (.string text) (.string text)
  | symbol : IsSymbol fields → Doubled (.object fields) (.object fields)
  | array : Forall₂ Doubled xs ys → Doubled (.array xs) (.array ys)

end Json

/-! ## Nodes that come back -/

/-- The node of an atom, for a number that is not finite the empty node. -/
def Atom.finiteNode : Atom → Node
  | .number x => if x.isFinite then .atom (.number x) else .nil
  | a => .atom a

namespace Datum

mutual
/-- The node of a datum with the heads of a chain as an array list, and without numbers that are not
finite. -/
def arrayNode : Datum → Node
  | .atom a => a.finiteNode
  | .nil => .nil
  | .list xs => .list (arrayNodes xs)
  | .cons a b => .list (a.arrayNode :: b.arrayTail)

def arrayNodes : List Datum → List Node
  | [] => []
  | x :: xs => x.arrayNode :: arrayNodes xs

def arrayTail : Datum → List Node
  | .cons a b => a.arrayNode :: b.arrayTail
  | _ => []
end

theorem arrayNodes_eq (xs : List Datum) : arrayNodes xs = xs.map arrayNode := by
  induction xs with
  | nil => rfl
  | cons x xs ih => rw [arrayNodes, ih, map_cons]

theorem arrayTail_eq : ∀ d : Datum, d.arrayTail = d.heads.map arrayNode
  | .cons a b => by rw [arrayTail, arrayTail_eq b, heads, map_cons]
  | .atom _ | .list _ | .nil => rfl

theorem arrayNode_list (xs : List Datum) :
    arrayNode (.list xs) = .list ((Datum.list xs).items.map arrayNode) := by
  rw [arrayNode, arrayNodes_eq, items]

theorem arrayNode_cons (a b : Datum) :
    arrayNode (.cons a b) = .list ((Datum.cons a b).items.map arrayNode) := by
  rw [arrayNode, arrayTail_eq]
  rfl

end Datum

/-! ## From nodes to JSON and back -/

theorem Atom.ofJsonAt_toJson (a : Atom) (levels : Nat) :
    Node.ofJsonAt (levels + 1) a.toJson = .ok a.finiteNode := by
  cases a with
  | string | symbol | bool => rfl
  | number x =>
    rw [toJson, finiteNode]
    split <;> rfl

namespace Heap
variable {h : Heap} {n : Node} {d : Datum} {v : Json} {levels : Nat}

theorem toJsonAt_of_isList (h : Heap) (levels : Nat) (hn : n.isList) (hnil : n ≠ .nil) :
    h.toJsonAt (levels + 1) n =
      h.sequence n >>= fun nodes => Json.array <$> nodes.mapM (h.toJsonAt levels) := by
  cases n with
  | atom => cases hn
  | nil => exact absurd rfl hnil
  | list | cell => rfl

/-- The JSON of a list is made of the JSON of its items. -/
theorem toJsonAt_list (hn : n.isList) (hnil : n ≠ .nil) (H : h.toJsonAt (levels + 1) n = .ok v) :
    ∃ nodes values, h.Items n nodes ∧ v = .array values ∧
      Forall₂ (fun n v => h.toJsonAt levels n = .ok v) nodes values := by
  rw [h.toJsonAt_of_isList levels hn hnil] at H
  obtain ⟨nodes, hnodes, H⟩ := bind_eq_ok_iff.1 H
  obtain ⟨values, hvalues, rfl⟩ := map_eq_ok_iff.1 H
  exact ⟨nodes, values, items_of_sequence hnodes, rfl, mapM_eq_ok_iff.1 hvalues⟩

theorem ofJsonAt_toJsonAt_list (H : h.Unfolds n d) (hn : n.isList) (hnil : n ≠ .nil)
    (ih : ∀ n d v, h.Unfolds n d → h.toJsonAt levels n = .ok v →
      Node.ofJsonAt levels v = .ok d.arrayNode)
    (hv : h.toJsonAt (levels + 1) n = .ok v) :
    Node.ofJsonAt (levels + 1) v = .ok (.list (d.items.map Datum.arrayNode)) := by
  obtain ⟨nodes, values, hnodes, rfl, hvalues⟩ := toJsonAt_list hn hnil hv
  have hitems : Forall₂ (fun v x => Node.ofJsonAt levels v = .ok x.arrayNode) values d.items :=
    forall₂_of_common (fun n v d hv hd => ih n d v hd hv) hvalues (H.items hnodes)
  rw [Node.ofJsonAt, mapM_eq_ok_iff.2 (forall₂_map_right_iff.2 hitems)]
  rfl

theorem ofJsonAt_toJsonAt (H : h.Unfolds n d) (hv : h.toJsonAt levels n = .ok v) :
    Node.ofJsonAt levels v = .ok d.arrayNode := by
  induction levels generalizing n d v with
  | zero => cases hv
  | succ levels ih =>
    cases H with
    | atom =>
      cases hv
      exact Atom.ofJsonAt_toJson _ levels
    | nil =>
      cases hv
      rfl
    | list hitems =>
      rw [Datum.arrayNode_list]
      exact ofJsonAt_toJsonAt_list (.list hitems) rfl (by simp) (fun _ _ _ => ih) hv
    | cell ha hb =>
      rw [Datum.arrayNode_cons]
      exact ofJsonAt_toJsonAt_list (.cell ha hb) rfl (by simp) (fun _ _ _ => ih) hv

end Heap

/-! ## From JSON to nodes -/

namespace Json
variable {P : Nat → Json → Prop}

theorem forall_part_array {items : List Json} : (∀ k e, Part k e (.array items) → P k e) ↔
    P 0 (.array items) ∧ ∀ x ∈ items, ∀ k e, Part k e x → P (k + 1) e := by
  constructor
  · intro H
    exact ⟨H _ _ .self, fun x hx k e h => H _ _ (.item hx h)⟩
  · rintro ⟨hself, hitems⟩ k e h
    cases h with
    | self => exact hself
    | item hx h => exact hitems _ hx _ _ h

theorem forall_part_object {fields : List (String × Json)} :
    (∀ k e, Part k e (.object fields) → P k e) ↔
      P 0 (.object fields) ∧ ∀ name x, (name, x) ∈ fields → ∀ k e, Part k e x → P k e := by
  constructor
  · intro H
    exact ⟨H _ _ .self, fun name x hx k e h => H _ _ (.field hx h)⟩
  · rintro ⟨hself, hfields⟩ k e h
    cases h with
    | self => exact hself
    | field hx h => exact hfields _ _ hx _ _ h

theorem forall_part_leaf {v : Json} (harray : ∀ items, v ≠ .array items)
    (hobject : ∀ fields, v ≠ .object fields) : (∀ k e, Part k e v → P k e) ↔ P 0 v := by
  constructor
  · intro H
    exact H _ _ .self
  · intro hself k e h
    cases h with
    | self => exact hself
    | item => exact absurd rfl (harray _)
    | field => exact absurd rfl (hobject _)

end Json

namespace Node
variable {v : Json} {m : Node} {levels : Nat}

theorem ofJsonAt_object (levels : Nat) (fields : List (String × Json)) :
    (∃ m, ofJsonAt (levels + 1) (.object fields) = .ok m) ↔ Json.IsSymbol fields := by
  constructor
  · rintro ⟨m, hm⟩
    by_contra hfields
    rw [ofJsonAt] at hm
    · cases hm
    · exact fun name hname => hfields ⟨name, hname⟩
  · rintro ⟨name, rfl⟩
    exact ⟨_, rfl⟩

theorem ofJsonAt_array (levels : Nat) (items : List Json) :
    (∃ m, ofJsonAt (levels + 1) (.array items) = .ok m) ↔
      ∀ x ∈ items, ∃ m, ofJsonAt levels x = .ok m := by
  rw [← mapM_isOk_iff]
  constructor
  · rintro ⟨m, hm⟩
    obtain ⟨nodes, hnodes, -⟩ := map_eq_ok_iff.1 hm
    exact ⟨nodes, hnodes⟩
  · rintro ⟨nodes, hnodes⟩
    exact ⟨_, map_eq_ok_iff.2 ⟨nodes, hnodes, rfl⟩⟩

theorem ofJsonAt_isOk_iff : (∃ m, ofJsonAt levels v = .ok m) ↔ ∀ k e, Json.Part k e v →
    k < levels ∧ ∀ fields, e = .object fields → Json.IsSymbol fields := by
  induction levels generalizing v with
  | zero =>
    constructor
    · rintro ⟨m, hm⟩
      cases hm
    · intro H
      exact absurd (H _ _ .self).1 (Nat.lt_irrefl 0)
  | succ levels ih =>
    cases v with
    | array items =>
      rw [Json.forall_part_array, ofJsonAt_array]
      simp [ih]
    | object fields =>
      rw [Json.forall_part_object, ofJsonAt_object]
      constructor
      · rintro ⟨name, rfl⟩
        simp [Json.IsSymbol, Json.forall_part_leaf]
      · rintro ⟨⟨-, hfields⟩, -⟩
        exact hfields fields rfl
    | null | bool | integer | double | string =>
      rw [Json.forall_part_leaf (by simp) (by simp)]
      simp [ofJsonAt]

end Node

/-! ## From JSON to nodes and back -/

namespace Heap
variable {v : Json} {m : Node} {levels : Nat}

theorem toJsonAt_of_ofJsonAt (h : Heap) (hv : v.WellFormed) (H : Node.ofJsonAt levels v = .ok m) :
    ∃ w, h.toJsonAt levels m = .ok w ∧ v.Doubled w := by
  induction levels generalizing v m with
  | zero => cases H
  | succ levels ih =>
    cases v with
    | null =>
      cases H
      exact ⟨_, rfl, .null⟩
    | bool b =>
      cases H
      exact ⟨_, rfl, .bool b⟩
    | string text =>
      cases H
      exact ⟨_, rfl, .string text⟩
    | double x =>
      cases H
      have hx : x.isFinite := hv _ _ .self
      refine ⟨.double x, ?_, .double x⟩
      rw [toJsonAt, Atom.toJson, if_pos hx]
    | integer n =>
      cases H
      obtain ⟨hlo, hhi⟩ : -2 ^ 63 ≤ n ∧ n < 2 ^ 64 := hv _ _ .self
      have hx := Binary64.nearest_ofRatio (n := n) (by omega)
      refine ⟨_, ?_, .integer hx⟩
      rw [toJsonAt, Atom.toJson, if_pos hx.finite]
    | object fields =>
      obtain ⟨name, rfl⟩ := (Node.ofJsonAt_object levels fields).1 ⟨m, H⟩
      cases H
      exact ⟨_, rfl, .symbol ⟨name, rfl⟩⟩
    | array items =>
      obtain ⟨nodes, hnodes, rfl⟩ := map_eq_ok_iff.1 H
      have hitems : ∀ x ∈ items, x.WellFormed := fun x hx k e h => hv _ _ (.item hx h)
      obtain ⟨values, hvalues, hdoubled⟩ := exists_forall₂ (mapM_eq_ok_iff.1 hnodes)
        fun x hx m hm => ih (hitems x hx) hm
      refine ⟨.array values, ?_, .array hdoubled⟩
      exact bind_eq_ok_iff.2 ⟨nodes, rfl, map_eq_ok_iff.2 ⟨values, mapM_eq_ok_iff.2 hvalues, rfl⟩⟩

end Heap

/-- Nodes and JSON values go over into each other. The JSON of a finite node reads back as the node
with array lists for its chains, the ends of the chains dropped, and the empty node for numbers that
are not finite. A JSON value is refused exactly when it holds an object that is no symbol, or a
value more than `maxNesting` arrays deep. The node of a value that is read has a JSON form again,
which is the value with every number replaced by the double nearest to it. -/
theorem json_round_trip :
    (∀ (h : Heap) (n : Node) (d : Datum) (v : Json), h.Unfolds n d → h.toJson n = .ok v →
      Node.ofJson v = .ok d.arrayNode) ∧
    (∀ v : Json, (∃ e, Node.ofJson v = .error e) ↔
      (∃ k fields, Json.Part k (.object fields) v ∧ ¬ Json.IsSymbol fields) ∨
        ∃ k e, Json.Part k e v ∧ maxNesting < k) ∧
    ∀ (v : Json) (m : Node), v.WellFormed → Node.ofJson v = .ok m → ∀ h : Heap,
      ∃ w, h.toJson m = .ok w ∧ v.Doubled w := by
  refine ⟨fun h n d v => Heap.ofJsonAt_toJsonAt, fun v => ?_, fun v m hv H h =>
    h.toJsonAt_of_ofJsonAt hv H⟩
  have hfails : (∃ e, Node.ofJson v = .error e) ↔ ¬ ∃ m, Node.ofJson v = .ok m := by
    cases Node.ofJson v <;> simp
  rw [hfails, Node.ofJson, Node.ofJsonAt_isOk_iff]
  constructor
  · intro H
    by_contra hgood
    rw [not_or] at hgood
    apply H
    intro k e he
    refine ⟨?_, ?_⟩
    · by_contra hk
      exact hgood.2 ⟨k, e, he, by omega⟩
    · rintro fields rfl
      by_contra hfields
      exact hgood.1 ⟨k, fields, he, hfields⟩
  · rintro (⟨k, fields, he, hfields⟩ | ⟨k, e, he, hk⟩) H
    · exact hfields ((H k _ he).2 fields rfl)
    · have := (H k e he).1
      omega

/-- A dotted chain with a number that is not finite, and an integer that no double holds. -/
theorem json_round_trip_dotted :
    let d : Datum := .chain [.symbol "a", .list [], .nil,
      .atom (.number (.ofMagnitude false Binary64.infinityBits))] (.atom (.string "end"))
    let stored := Heap.empty.store d
    let v : Json := .array [.object [("symbol", .string "a")], .array [], .null, .null]
    let u : Json := .array [.integer 9007199254740993, .object [("symbol", .string "b")]]
    let m : Node := .list [.atom (.number ⟨0x4340000000000000⟩), .symbol "b"]
    stored.1.toJson stored.2 = .ok v ∧
      Node.ofJson v = .ok (.list [.symbol "a", .list [], .nil, .nil]) ∧
      u.WellFormed ∧ Node.ofJson u = .ok m ∧ ∃ w, Heap.empty.toJson m = .ok w ∧ u.Doubled w := by
  intro d stored v u m
  have hv : stored.1.toJson stored.2 = .ok v := by rfl
  have hu : u.WellFormed := by
    simp [u, Json.WellFormed, Json.forall_part_array, Json.forall_part_object,
      Json.forall_part_leaf, Json.IsNumber]
  have hm : Node.ofJson u = .ok m := by
    have hx : Binary64.ofRatio false 9007199254740993 1 = ⟨0x4340000000000000⟩ := by decide +kernel
    show Except.ok (Node.list [.atom (.number (.ofRatio false 9007199254740993 1)), _]) = _
    rw [hx]
  exact ⟨hv, json_round_trip.1 _ _ d v (Heap.empty.store_unfolds d) hv, hu, hm,
    json_round_trip.2.2 u m hu hm .empty⟩

end ListPress
