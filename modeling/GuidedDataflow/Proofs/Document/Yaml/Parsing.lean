import GuidedDataflow.Document.Yaml.Resolve
import GuidedDataflow.Proofs.Document.Yaml.Blocks

/-!
The nodes of trees in block style. The tokens of a tree are parsed as its node, and what follows
them is left, unless it goes on with the items of a list.
-/

namespace GuidedDataflow.Yaml

namespace Node

mutual

/-- The node that a tree is read back as. -/
def ofTree : Tree → Node
  | .list ts => .sequence (ofItems ts)
  | .map es => .mapping (ofEntries es)
  | .text s => .scalar (isPlainText s) s
  | t => .scalar true (Json.scalar t)

def ofItems : List Tree → List Node
  | [] => []
  | t :: ts => ofTree t :: ofItems ts

def ofEntries : List (Key × Tree) → List (Node × Node)
  | [] => []
  | (k, v) :: es => (.scalar true (Json.keyText k), ofTree v) :: ofEntries es

end

/-- The tokens of a value that are parsed with enough fuel. -/
def ParsesValue (t : Tree) : Prop :=
  ∀ fuel rest, 2 * (blockTokens t).length + 2 ≤ fuel → rest.head? ≠ some Token.blockEntry →
    parse? fuel true true (blockTokens t ++ rest) = some (ofTree t, rest)

/-- The tokens of an item, which are those of a block of their own. -/
def ParsesItem (t : Tree) : Prop :=
  ∀ fuel rest, 2 * (blockTokens t).length + 2 ≤ fuel →
    parse? fuel true false (blockTokens t ++ rest) = some (ofTree t, rest)

/-- A value is there where the tokens of a tree begin. -/
theorem endsBlockValue_blockTokens (t : Tree) (rest : List Token) :
    endsBlockValue (blockTokens t ++ rest) = false := by
  cases t with
  | list ts => cases ts <;> rfl
  | _ => rfl

/-- An entry of a mapping with a scalar as its key. -/
theorem blockEntries?_entry {fuel : Nat} {plain : Bool} {k : String} {v : Node}
    {ts rest : List Token}
    (hv : blockValue? (fuel + 2) ts = some (v, rest)) :
    blockEntries? (fuel + 3) (.key :: .scalar plain k :: .value :: ts) =
      (blockEntries? (fuel + 2) rest).map fun (es, ts) => ((.scalar plain k, v) :: es, ts) := by
  have hkey : blockValue? (fuel + 2) (.scalar plain k :: .value :: ts) =
      some (.scalar plain k, .value :: ts) := by
    simp [blockValue?, endsBlockValue, parse?]
  rw [blockEntries?]
  simp only [hkey, hv]

theorem blockEntries?_of_values {es : List (Key × Tree)} (values : ∀ e ∈ es, ParsesValue e.2)
    {fuel : Nat} (hfuel : 2 * (entryTokens es).length + 2 ≤ fuel) (rest : List Token) :
    blockEntries? fuel (entryTokens es ++ .blockEnd :: rest) = some (ofEntries es, rest) := by
  induction es generalizing fuel with
  | nil =>
    obtain ⟨fuel, rfl⟩ := Nat.exists_eq_add_one.2 (show 0 < fuel by omega)
    simp [entryTokens, ofEntries, blockEntries?]
  | cons e es ih =>
    obtain ⟨k, v⟩ := e
    obtain ⟨hv, values⟩ := List.forall_mem_cons.1 values
    simp only [entryTokens, List.length_append, List.length_cons, List.length_nil] at hfuel
    obtain ⟨fuel, rfl⟩ := Nat.exists_eq_add_of_le' (show 3 ≤ fuel by omega)
    have hnext : (entryTokens es ++ .blockEnd :: rest).head? ≠ some .blockEntry := by
      cases es <;> simp [entryTokens]
    have hvalue : blockValue? (fuel + 2) (blockTokens v ++ (entryTokens es ++ .blockEnd :: rest)) =
        some (ofTree v, entryTokens es ++ .blockEnd :: rest) := by
      rw [blockValue?, if_neg (by simp [endsBlockValue_blockTokens])]
      exact hv (fuel + 1) _ (by simp only at *; omega) hnext
    simp only [entryTokens, List.append_assoc, List.cons_append, List.nil_append, ofEntries]
    rw [blockEntries?_entry hvalue, ih values (by omega)]
    rfl

theorem indentlessItems?_end {fuel : Nat} {rest : List Token}
    (hrest : rest.head? ≠ some .blockEntry) :
    indentlessItems? (fuel + 1) rest = some ([], rest) := by
  rw [indentlessItems?]
  rintro ts rfl
  exact hrest rfl

theorem indentlessItems?_item {fuel : Nat} {n : Node} {ts rest : List Token}
    (hstart : ts.head? ≠ some .blockEntry) (hvalue : endsBlockValue ts = false)
    (h : parse? fuel true false ts = some (n, rest)) :
    indentlessItems? (fuel + 1) (.blockEntry :: ts) =
      (indentlessItems? fuel rest).map fun (ns, ts) => (n :: ns, ts) := by
  rw [indentlessItems?]
  · simp only [hvalue, Bool.false_eq_true, if_false, h]
  · rintro ts rfl
    exact hstart rfl

theorem indentlessItems?_of_items {items : List Tree} (hitems : ∀ t ∈ items, ParsesItem t)
    (hrecords : ∀ t ∈ items, IsRecord t) {fuel : Nat}
    (hfuel : 2 * (itemTokens items).length + 1 ≤ fuel) {rest : List Token}
    (hrest : rest.head? ≠ some .blockEntry) :
    indentlessItems? fuel (itemTokens items ++ rest) = some (ofItems items, rest) := by
  induction items generalizing fuel with
  | nil =>
    obtain ⟨fuel, rfl⟩ := Nat.exists_eq_add_one.2 (show 0 < fuel by omega)
    exact indentlessItems?_end hrest
  | cons t items ih =>
    obtain ⟨ht, hlater⟩ := List.forall_mem_cons.1 hitems
    obtain ⟨⟨e, es, rfl⟩, hlaterRecords⟩ := List.forall_mem_cons.1 hrecords
    simp only [itemTokens, List.length_append, List.length_cons] at hfuel
    obtain ⟨fuel, rfl⟩ := Nat.exists_eq_add_one.2 (show 0 < fuel by omega)
    have hitem := ht fuel (itemTokens items ++ rest) (by omega)
    simp only [itemTokens, List.append_assoc, List.cons_append, ofItems]
    rw [indentlessItems?_item (by simp [blockTokens]) (endsBlockValue_blockTokens _ _) hitem,
      ih hlater hlaterRecords (by omega)]
    rfl

/-- The tokens of a tree are parsed as its node. -/
theorem parses_of_nested {t : Tree} (h : Nested t) :
    ParsesValue t ∧ (IsRecord t → ParsesItem t) := by
  induction h with
  | text s =>
    refine ⟨fun fuel rest hfuel _ => ?_, (absurd · (not_isRecord_text s))⟩
    obtain ⟨fuel, rfl⟩ := Nat.exists_eq_add_one.2 (show 0 < fuel by omega)
    simp [blockTokens, parse?, ofTree]
  | nat k =>
    refine ⟨fun fuel rest hfuel _ => ?_, (absurd · (not_isRecord_nat k))⟩
    obtain ⟨fuel, rfl⟩ := Nat.exists_eq_add_one.2 (show 0 < fuel by omega)
    simp [Tree.nat, blockTokens, parse?, ofTree]
  | @list items records _ ih =>
    refine ⟨fun fuel rest hfuel hrest => ?_, (absurd · (not_isRecord_list items))⟩
    cases items with
    | nil =>
      obtain ⟨fuel, rfl⟩ := Nat.exists_eq_add_of_le' (show 2 ≤ fuel by omega)
      simp [blockTokens, parse?, flowItems?, ofTree, ofItems]
    | cons t items =>
      obtain ⟨fuel, rfl⟩ := Nat.exists_eq_add_one.2 (show 0 < fuel by omega)
      have hitems := indentlessItems?_of_items (fun u hu => (ih u hu).2 (records u hu)) records
        (show 2 * (itemTokens (t :: items)).length + 1 ≤ fuel by
          rw [blockTokens] at hfuel
          omega) hrest
      have htokens : itemTokens (t :: items) ++ rest =
          .blockEntry :: (blockTokens t ++ (itemTokens items ++ rest)) := by
        simp [itemTokens]
      rw [htokens] at hitems
      rw [blockTokens, htokens, ofTree, parse?]
      simp [hitems]
  | @map es ne_nil names values ih =>
    have hparse (fuel : Nat) (indentless : Bool) (rest : List Token)
        (hfuel : 2 * (blockTokens (.map es)).length + 2 ≤ fuel) :
        parse? fuel true indentless (blockTokens (.map es) ++ rest) =
          some (ofTree (.map es), rest) := by
      obtain ⟨fuel, rfl⟩ := Nat.exists_eq_add_one.2 (show 0 < fuel by omega)
      simp only [blockTokens, List.length_cons, List.length_append] at hfuel
      have hentries := blockEntries?_of_values (fun e he => (ih e he).1)
        (show 2 * (entryTokens es).length + 2 ≤ fuel by omega) rest
      simp [blockTokens, parse?, hentries, ofTree]
    exact ⟨fun fuel rest hfuel _ => hparse fuel true rest hfuel,
      fun _ fuel rest hfuel => hparse fuel false rest hfuel⟩

end Node

end GuidedDataflow.Yaml
