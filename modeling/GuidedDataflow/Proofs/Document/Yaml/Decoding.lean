import GuidedDataflow.Document.Basic
import GuidedDataflow.Proofs.Document.Yaml.ReadBack

/-!
Values read from the nodes of trees: numbers from their digits, records from their entries, and text
as plain data.
-/

namespace GuidedDataflow

open Document

namespace Yaml

theorem hexValue?_of_digit {c : Char} (h : c.isDigit = true) :
    Json.hexValue? c = some (c.toNat - '0'.toNat) := by
  have hrange : '0' ≤ c ∧ c ≤ '9' := by
    simpa [Char.isDigit, Char.le_def] using h
  simp [Json.hexValue?, hrange]

theorem digitOf?_of_digit {c : Char} (h : c.isDigit = true) :
    digitOf? 10 c = some (c.toNat - '0'.toNat) := by
  have hrange : 48 ≤ c.toNat ∧ c.toNat ≤ 57 := by
    simpa [Char.isDigit, UInt32.le_iff_toNat_le] using h
  have hvalue : c.toNat - '0'.toNat < 10 := by
    simp
    omega
  rw [digitOf?, hexValue?_of_digit h]
  simpa using hvalue

theorem mapM_eq_some_map {α β : Type} {read : α → Option β} {value : α → β} {l : List α}
    (h : ∀ a ∈ l, read a = some (value a)) : l.mapM read = some (l.map value) := by
  induction l with
  | nil => rfl
  | cons a l ih =>
    obtain ⟨ha, hl⟩ := List.forall_mem_cons.1 h
    simp [List.mapM_cons, ha, ih hl]

theorem partition_first {α : Type} {p : α → Bool} {a : α} {l : List α} (ha : p a = true)
    (hl : ∀ b ∈ l, p b = false) : (a :: l).partition p = ([a], l) := by
  have hnone : l.filter p = [] := List.filter_eq_nil_iff.2 fun b hb => by simp [hl b hb]
  have hall : l.filter (not ∘ p) = l := List.filter_eq_self.2 fun b hb => by simp [hl b hb]
  simp [List.partition_eq_filter_filter, ha, hnone, hall]

/-- Decimal digits are read as the number that they write. -/
theorem magnitude?_of_digits {cs : List Char} (hne : cs ≠ []) (h : ∀ c ∈ cs, c.isDigit = true) :
    magnitude? 10 cs = some (Nat.ofDigitChars 10 cs 0) := by
  have hne : cs.isEmpty = false := List.isEmpty_eq_false_iff.2 hne
  have hvalues := mapM_eq_some_map fun c hc => digitOf?_of_digit (h c hc)
  simp [magnitude?, hne, hvalues, Nat.ofDigitChars, List.foldl_map]

theorem head_toDigits_ne_zero {n : Nat} (hn : 0 < n) : (Nat.toDigits 10 n).head? ≠ some '0' := by
  induction n using Nat.strongRecOn with
  | ind n ih =>
    rw [Nat.toDigits_eq_if (by decide)]
    split
    · rename_i hsmall
      have hdigit : ∀ d : Fin 10, 0 < d.1 → Nat.digitChar d.1 ≠ '0' := by decide
      simpa using hdigit ⟨n, hsmall⟩ hn
    · have hfront := ih (n / 10) (by omega) (by omega)
      obtain ⟨c, cs, heq⟩ :=
        List.exists_cons_of_ne_nil (Nat.toDigits_ne_nil (n := n / 10) (b := 10))
      rw [heq] at hfront ⊢
      exact hfront

/-- The digits of a number begin with a zero only if there is nothing else. -/
theorem toDigits_cases (n : Nat) :
    Nat.toDigits 10 n = ['0'] ∨
      ∃ c cs, Nat.toDigits 10 n = c :: cs ∧ c ≠ '0' ∧ c ≠ '+' ∧ c ≠ '-' := by
  rcases Nat.eq_zero_or_pos n with rfl | hn
  · exact .inl rfl
  · obtain ⟨c, cs, heq⟩ := List.exists_cons_of_ne_nil (Nat.toDigits_ne_nil (n := n) (b := 10))
    have hdigit : c.isDigit = true :=
      Nat.isDigit_of_mem_toDigits (b := 10) (n := n) (by decide) (by decide) (by simp [heq])
    have hzero := head_toDigits_ne_zero hn
    rw [heq] at hzero
    refine .inr ⟨c, cs, heq, by simpa using hzero, ?_, ?_⟩ <;> rintro rfl <;> cases hdigit

theorem magnitude?_toDigits (n : Nat) : magnitude? 10 (Nat.toDigits 10 n) = some n := by
  rw [magnitude?_of_digits Nat.toDigits_ne_nil fun _ =>
    Nat.isDigit_of_mem_toDigits (by decide) (by decide), Nat.ofDigitChars_toDigits] <;> decide

/-- A number of the range is read from its digits. -/
theorem natOf?_toDigits {limit n : Nat} (h : n ≤ limit) :
    natOf? limit (Nat.toDigits 10 n) = some n := by
  have hmagnitude := magnitude?_toDigits n
  rcases toDigits_cases n with heq | ⟨c, cs, heq, hzero, hplus, hminus⟩
  · rw [heq] at hmagnitude ⊢
    simp [natOf?, unsigned?, hasLeadingZero, hmagnitude, h]
  · rw [heq] at hmagnitude ⊢
    have hleading : hasLeadingZero (c :: cs) = false := by
      simp [hasLeadingZero, hzero, hplus, hminus]
    simp [natOf?, unsigned?, hplus, hzero, hleading, hmagnitude, h]

theorem isNullText_toDigits (n : Nat) : isNullText (Nat.toDigits 10 n) = false := by
  obtain ⟨c, cs, heq⟩ := List.exists_cons_of_ne_nil (Nat.toDigits_ne_nil (n := n) (b := 10))
  have hdigit : c.isDigit = true :=
    Nat.isDigit_of_mem_toDigits (b := 10) (n := n) (by decide) (by decide) (by simp [heq])
  have hother : ∀ d : Char, d.isDigit = false → ¬d = c := by
    rintro d hd rfl
    simp [hdigit] at hd
  simp [isNullText, heq, hother]

theorem resolve?_text {s t : String} (h : resolve? s = some (.text t)) : t = s := by
  simp only [resolve?] at h
  split at h
  · cases h
  split at h
  · cases h
  split at h
  · cases h
  split at h
  · cases h
  split at h
  · cases h
  split at h
  · cases h
  · exact (Tree.text.inj (Option.some.inj h)).symm

/-- Text that is written plain stands for itself. -/
theorem resolve?_of_plain {s : String} (h : isPlainText s = true) :
    resolve? s = some (.text s) := by
  have hquotes := (allowsPlain_of_style (of_decide_eq_true h)).1
  simp only [needsQuotes, String.ofList_toList] at hquotes
  split at hquotes
  · rename_i heq
    rw [heq, resolve?_text heq]
  · cases hquotes

theorem Nested.record {entries : List (String × Tree)} (ne_nil : entries ≠ [])
    (names : ∀ e ∈ entries, FieldName e.1.toList) (values : ∀ e ∈ entries, Nested e.2) :
    Nested (.record entries) := by
  refine .map (by simpa using ne_nil) ?_ ?_
  · rw [List.forall_mem_map]
    exact names
  · rw [List.forall_mem_map]
    exact values

theorem Node.tree?_text (s : String) : tree? (ofTree (.text s)) = some (.text s) := by
  rw [ofTree]
  cases h : isPlainText s with
  | true => exact resolve?_of_plain h
  | false => rfl

end Yaml

namespace Record

variable {α : Type} {fields : List Field} {strict : Bool}

theorem add?_new {r : Record α} {name : String} {value : α}
    (hfield : fields.any (·.name = name) = true) (hnew : r.get? name = none) :
    r.add? fields strict name value = some (r ++ [(name, value)]) := by
  simp [add?, hfield, hnew]

/-- Entries for different fields are all there, in order. -/
theorem foldlM_add? {entries r : Record α}
    (hfields : ∀ e ∈ entries, fields.any (·.name = e.1) = true)
    (hnew : ∀ e ∈ entries, r.get? e.1 = none) (hnodup : (entries.map Prod.fst).Nodup) :
    entries.foldlM (fun r (name, value) => add? fields strict name value r) r =
      some (r ++ entries) := by
  induction entries generalizing r with
  | nil => simp
  | cons e entries ih =>
    obtain ⟨name, value⟩ := e
    obtain ⟨hfield, hfields⟩ := List.forall_mem_cons.1 hfields
    obtain ⟨hfirst, hnew⟩ := List.forall_mem_cons.1 hnew
    obtain ⟨hname, hnodup⟩ := List.nodup_cons.1 hnodup
    have hlater : ∀ e ∈ entries, get? (r ++ [(name, value)]) e.1 = none := fun e he => by
      have hmem : e.1 ∈ entries.map Prod.fst := List.mem_map_of_mem he
      have hne : e.1 ≠ name := fun heq => hname (heq ▸ hmem)
      have hold : r.lookup e.1 = none := hnew e he
      simp [get?, List.lookup_append, hold, List.lookup_cons, List.lookup_nil,
        beq_eq_false_iff_ne.2 hne]
    have hadd : add? fields strict name value r = some (r ++ [(name, value)]) :=
      add?_new hfield hfirst
    simp only [List.foldlM_cons, hadd, Option.bind_eq_bind, Option.bind_some]
    rw [ih hfields hlater hnodup, List.append_assoc]
    rfl

/-- A field that is there and not null is read. -/
theorem nullable?_found {β : Type} {r : Record α} {name : String} {isNull : α → Bool}
    {read : α → Option β} {a : α} {b : β} (hget : r.get? name = some a) (hnull : isNull a = false)
    (hread : read a = some b) : r.nullable? name isNull read = some (some b) := by
  simp [nullable?, hget, hnull, hread]

end Record

namespace Yaml.Node

theorem ofEntries_record (entries : List (String × Tree)) :
    ofEntries (entries.map fun (name, value) => (.name name, value)) =
      entries.map fun (name, value) => (.scalar true name, ofTree value) := by
  induction entries with
  | nil => rfl
  | cons e entries ih =>
    rw [List.map_cons, ofEntries, ih]
    rfl

section
variable {d : Nat}

theorem depth_ofTree_list {ts : List Tree} (h : ∀ t ∈ ts, (ofTree t).depth ≤ d) :
    (ofTree (.list ts)).depth ≤ d + 1 := by
  rw [ofTree, depth, Nat.add_le_add_iff_right]
  induction ts with
  | nil => exact Nat.zero_le d
  | cons t ts ih =>
    obtain ⟨ht, hts⟩ := List.forall_mem_cons.1 h
    exact Nat.max_le.2 ⟨ht, ih hts⟩

theorem depth_ofTree_record {entries : List (String × Tree)}
    (h : ∀ e ∈ entries, (ofTree e.2).depth ≤ d) : (ofTree (.record entries)).depth ≤ d + 1 := by
  rw [Tree.record, ofTree, ofEntries_record, depth, Nat.add_le_add_iff_right]
  induction entries with
  | nil => exact Nat.zero_le d
  | cons e entries ih =>
    obtain ⟨he, hentries⟩ := List.forall_mem_cons.1 h
    exact Nat.max_le.2 ⟨Nat.max_le.2 ⟨Nat.zero_le d, he⟩, ih hentries⟩

end

/-- The nodes of a record's fields. -/
def ofFields (entries : List (String × Tree)) : Record Node :=
  entries.map fun (name, value) => (name, ofTree value)

theorem names_ofFields (entries : List (String × Tree)) :
    (ofFields entries).map Prod.fst = entries.map Prod.fst :=
  List.map_map

/-- The fields of a record are there under their names. -/
theorem record?_ofTree {fields : List Field} {strict : Bool} {entries : List (String × Tree)}
    (hfields : ∀ name ∈ entries.map Prod.fst, fields.any (·.name = name) = true)
    (hnodup : (entries.map Prod.fst).Nodup) :
    record? fields strict (ofTree (.record entries)) =
      some (ofFields entries) := by
  rw [← names_ofFields] at hfields hnodup
  have hadd := @Record.foldlM_add? Node fields strict (ofFields entries) []
    (List.forall_mem_map.1 hfields) (fun _ _ => rfl) hnodup
  rw [Tree.record, ofTree, ofEntries_record, record?]
  simpa [List.foldlM_map, text?, ofFields] using hadd

theorem isNull_ofTree_nat (n : Nat) : isNull (ofTree (.nat n)) = false := by
  have hwritten : (Json.scalar (.int n)).toList = Nat.toDigits 10 n := Nat.toList_repr
  have hnull : isNullText (Json.scalar (.int n)).toList = false := by
    rw [hwritten, isNullText_toDigits]
  exact hnull

theorem nat?_ofTree {n : Nat} (h : n ≤ maxUnsigned) : nat? (ofTree (.nat n)) = some n := by
  have hwritten : (Json.scalar (.int n)).toList = Nat.toDigits 10 n := Nat.toList_repr
  have hread : natOf? maxUnsigned (Json.scalar (.int n)).toList = some n := by
    rw [hwritten, natOf?_toDigits h]
  exact hread

theorem nullable?_nat {r : Record Node} {name : String} {n : Nat}
    (hget : r.get? name = some (ofTree (.nat n))) (h : n ≤ maxUnsigned) :
    r.nullable? name isNull nat? = some (some n) :=
  Record.nullable?_found hget (isNull_ofTree_nat n) (nat?_ofTree h)

theorem tree?_list {ts : List Tree} (h : ∀ t ∈ ts, tree? (ofTree t) = some t) :
    tree? (ofTree (.list ts)) = some (.list ts) := by
  have hitems : treeItems? (ofItems ts) = some ts := by
    induction ts with
    | nil => rfl
    | cons t ts ih =>
      obtain ⟨ht, hts⟩ := List.forall_mem_cons.1 h
      simp [ofItems, treeItems?, ht, ih hts]
  rw [ofTree, tree?, hitems]
  rfl

/-- The names of fields are keys as they stand. -/
theorem tree?_fieldName {name : String} (h : FieldName name.toList) :
    tree? (.scalar true name) = some (.text name) :=
  resolve?_of_plain (decide_eq_true h.style)

theorem tree?_record {entries : List (String × Tree)} (names : ∀ e ∈ entries, FieldName e.1.toList)
    (values : ∀ e ∈ entries, tree? (ofTree e.2) = some e.2) :
    tree? (ofTree (.record entries)) = some (.record entries) := by
  have hentries : treeEntries? (ofEntries (entries.map fun (name, value) => (.name name, value))) =
      some (entries.map fun (name, value) => (.name name, value)) := by
    induction entries with
    | nil => rfl
    | cons e entries ih =>
      obtain ⟨hname, names⟩ := List.forall_mem_cons.1 names
      obtain ⟨hvalue, values⟩ := List.forall_mem_cons.1 values
      simp [ofEntries, treeEntries?, Json.keyText, tree?_fieldName hname, hvalue, ih names values,
        keyOf]
  rw [Tree.record, ofTree, tree?, hentries]
  rfl

/-- The tag of a record and the other entries as plain data. -/
theorem tagged?_ofTree {tag name : String} {entries : List (String × Tree)}
    (htag : FieldName tag.toList) (names : ∀ e ∈ entries, FieldName e.1.toList)
    (hnew : ∀ e ∈ entries, e.1 ≠ tag) (values : ∀ e ∈ entries, tree? (ofTree e.2) = some e.2) :
    tagged? tag (ofTree (.record ((tag, .text name) :: entries))) =
      some (name, .record entries) := by
  let keyed (e : String × Tree) : Key × Node := (.name e.1, ofTree e.2)
  have hkeyed : ((tag, Tree.text name) :: entries).mapM
      (fun e => ((tree? (.scalar true e.1)).map keyOf).map (·, ofTree e.2)) =
        some (((tag, Tree.text name) :: entries).map keyed) := by
    refine mapM_eq_some_map fun e he => ?_
    have hname : FieldName e.1.toList := by
      rcases List.mem_cons.1 he with rfl | he
      · exact htag
      · exact names e he
    simp [tree?_fieldName hname, keyOf, keyed]
  have hpartition : (((tag, Tree.text name) :: entries).map keyed).partition
      (·.1 = .name tag) = ([keyed (tag, .text name)], entries.map keyed) := by
    refine partition_first (decide_eq_true rfl) fun e he => decide_eq_false ?_
    obtain ⟨e, hmem, rfl⟩ := List.mem_map.1 he
    exact fun heq => hnew e hmem (Key.name.inj heq)
  have hrest : entries.mapM (fun e => (tree? (ofTree e.2)).map (Key.name e.1, ·)) =
      some (entries.map fun e => (.name e.1, e.2)) :=
    mapM_eq_some_map fun e he => by simp [values e he]
  rw [Tree.record, ofTree, ofEntries_record, tagged?, List.mapM_map]
  refine Option.bind_eq_some_iff.2 ⟨_, hkeyed, ?_⟩
  rw [hpartition]
  refine Option.bind_eq_some_iff.2 ⟨_, (List.mapM_map ..).trans hrest, ?_⟩
  rfl

end Yaml.Node

end GuidedDataflow
