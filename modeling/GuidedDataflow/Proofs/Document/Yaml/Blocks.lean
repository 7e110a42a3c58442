import GuidedDataflow.Proofs.Document.Yaml.Layout

/-!
The tokens of whole trees in block style. Records, lists of records, texts and numbers nest here as
they do in the documents that are written: a record stands further in than its key, a list at the
column of its key, and its records behind the dashes.
-/

namespace GuidedDataflow.Yaml

def isPlainText (s : String) : Bool := styleOf s.toList = .plain

mutual

/-- The tokens of a value behind its key or dash. -/
def blockTokens : Tree → List Token
  | .list [] => [.flowSequenceStart, .flowSequenceEnd]
  | .list (t :: ts) => itemTokens (t :: ts)
  | .map es => .blockMappingStart :: entryTokens es ++ [.blockEnd]
  | .text s => [.scalar (isPlainText s) s]
  | t => [.scalar true (Json.scalar t)]

def itemTokens : List Tree → List Token
  | [] => []
  | t :: ts => .blockEntry :: blockTokens t ++ itemTokens ts

def entryTokens : List (Key × Tree) → List Token
  | [] => []
  | (k, v) :: es =>
    [.key, .scalar true (Json.keyText k), .value] ++ blockTokens v ++ entryTokens es

end

/-- A record that has fields. -/
def IsRecord (t : Tree) : Prop := ∃ e es, t = .map (e :: es)

theorem not_isRecord_text (s : String) : ¬IsRecord (.text s) := by simp [IsRecord]

theorem not_isRecord_nat (n : Nat) : ¬IsRecord (.nat n) := by simp [IsRecord, Tree.nat]

theorem not_isRecord_list (ts : List Tree) : ¬IsRecord (.list ts) := by simp [IsRecord]

/-- Trees of texts, numbers, records with field names as keys, and lists of records. -/
inductive Nested : Tree → Prop where
  | text (s : String) : Nested (.text s)
  | nat (n : Nat) : Nested (.nat n)
  | list {ts : List Tree} (records : ∀ t ∈ ts, IsRecord t) (items : ∀ t ∈ ts, Nested t) :
    Nested (.list ts)
  | map {es : List (Key × Tree)} (ne_nil : es ≠ [])
    (names : ∀ e ∈ es, FieldName (Json.keyText e.1).toList) (values : ∀ e ∈ es, Nested e.2) :
    Nested (.map es)

theorem Pieces.of_style {cs : List Char} (h : styleOf cs = .single) : Pieces cs := by
  obtain ⟨hprintable, hspaceBreak⟩ := printable_of_style (show styleOf cs ≠ .double by simp [h])
  simp only [styleOf] at h
  split at h
  · cases h
  split at h
  · split at h <;> cases h
  split at h
  · cases h
  · rename_i hfeed hbreakSpace
    exact .of_printable hprintable (by simpa using hfeed) hspaceBreak (by simpa using hbreakSpace)

theorem isBlankOrBreak_of_digit {c : Char} (h : c.isDigit = true) : isBlankOrBreak c = false := by
  refine Bool.eq_false_iff.2 fun hblank => ?_
  simp only [isBlankOrBreak, isSpaceOrTab, isBreak, Bool.or_eq_true, decide_eq_true_eq] at hblank
  rcases hblank with (rfl | rfl) | (((rfl | rfl) | rfl) | rfl) | rfl <;> cases h

theorem hasInnerIndicator_of_digits {cs : List Char} (h : ∀ c ∈ cs, c.isDigit = true) :
    hasInnerIndicator cs = false := by
  induction cs with
  | nil => rfl
  | cons c cs ih =>
    obtain ⟨hc, hcs⟩ := List.forall_mem_cons.1 h
    refine hasInnerIndicator_cons.2 ⟨?_, ?_, ih hcs⟩
    · rintro ⟨rfl, -⟩
      cases hc
    · simp [isBlankOrBreak_of_digit hc]

/-- Numbers are written as they are. -/
theorem PlainText.of_digits {cs : List Char} (hne : cs ≠ []) (h : ∀ c ∈ cs, c.isDigit = true) :
    PlainText cs := by
  have hedge : ∀ c ∈ cs, c ≠ ' ' ∧ isBreak c = false := fun c hc => by
    obtain ⟨hspace, hbreak⟩ := Bool.or_eq_false_iff.1 (isBlankOrBreak_of_digit (h c hc))
    exact ⟨of_decide_eq_false (Bool.or_eq_false_iff.1 hspace).1, hbreak⟩
  have hindicator : startsWithIndicator cs = false := by
    obtain ⟨c, cs, rfl⟩ := List.exists_cons_of_ne_nil hne
    have hother : ∀ d : Char, d.isDigit = false → c ≠ d := by
      rintro d hd rfl
      simp [h c (List.mem_cons_self ..)] at hd
    have hsame : ∀ d : Char, d.isDigit = false → ¬d = c := fun d hd => Ne.symm (hother d hd)
    simp [startsWithIndicator, List.isPrefixOf, hother, hsame]
  refine ⟨hne, ?_, fun c hc => ?_⟩
  · have hnone : ∀ o : Option Char, (∀ c ∈ o, c ∈ cs) →
        o.any (fun c => decide (c = ' ') || isBreak c) = false := by
      rintro (- | c) ho
      · rfl
      · simp [hedge c (ho c rfl)]
    have hbreaks : cs.any isBreak = false := List.any_eq_false.2 fun c hc => by simp [hedge c hc]
    simp [allowsPlain, hindicator, hasInnerIndicator_of_digits h, hbreaks,
      hnone _ fun c => List.mem_of_mem_head?, hnone _ fun c => List.mem_of_getLast?]
  · have hrange : 48 ≤ c.toNat ∧ c.toNat ≤ 57 := by
      simpa [Char.isDigit, UInt32.le_iff_toNat_le] using h c hc
    simp [isPrintable]
    omega

section
variable {n m column : Nat} {indents : List Nat} {rest : List Char} {ts : List Token}

theorem tokenStart_writeText (cs after : List Char) : TokenStart (writeText n cs ++ after) := by
  cases hstyle : styleOf cs with
  | plain => simpa [writeText, hstyle] using (PlainText.of_style hstyle).tokenStart ('\n' :: after)
  | _ => simp only [writeText, hstyle]; exact tokenStart_cons.2 (by decide)

/-- Text reads back whatever its style. -/
theorem Reads.text (s : String) (hm : m ≤ n) (hcolumn : n < column) (hstart : TokenStart rest)
    (h : Reads (n :: indents) true m rest ts) :
    Reads (n :: indents) false column (writeText (n + 2) s.toList ++ (spaces m ++ rest))
      (.scalar (isPlainText s) s :: ts) := by
  cases hstyle : styleOf s.toList with
  | plain =>
    have hread := h.plain (PlainText.of_style hstyle) hm hcolumn hstart
    simpa [writeText, isPlainText, hstyle] using hread
  | single =>
    have hpieces := Pieces.of_style hstyle
    have hquoted : ReadsQuoted false (escapeSingle (n + 2) s.toList ++
        '\'' :: '\n' :: (spaces m ++ rest)) s.toList ('\n' :: (spaces m ++ rest)) :=
      .single (Nat.succ_ne_zero _) hpieces (by simp)
    have hread := h.quoted hquoted (by simp; omega) hcolumn hstart
    simpa [writeText, isPlainText, hstyle] using hread
  | double =>
    have hread := h.quoted (.double s.toList ('\n' :: (spaces m ++ rest))) (by simp; omega) hcolumn
      hstart
    simpa [writeText, isPlainText, hstyle] using hread
  | literal =>
    have hprintable := (printable_of_style (show styleOf s.toList ≠ .double by simp [hstyle])).1
    have hne : s.toList ≠ [] := fun hnil => by
      rw [hnil] at hstyle
      cases hstyle
    have hread := h.literal hprintable hne hm hcolumn hstart
    simpa [writeText, isPlainText, hstyle] using hread

theorem plainText_toDigits (k : Nat) : PlainText (Nat.toDigits 10 k) :=
  .of_digits Nat.toDigits_ne_nil fun _ => Nat.isDigit_of_mem_toDigits (by decide) (by decide)

theorem writeScalar_nat (indent k : Nat) :
    writeScalar indent (.int k) = Nat.toDigits 10 k ++ ['\n'] := by
  have hwritten : (Json.scalar (.int k)).toList = Nat.toDigits 10 k := Nat.toList_repr
  rw [writeScalar, hwritten]
  nofun

/-- A line begins here, indented to column `n` at most, and from it on the tokens are `ts`. -/
def ReadsLine (indents : List Nat) (n : Nat) (text : List Char) (ts : List Token) : Prop :=
  ∃ m rest, text = spaces m ++ rest ∧ m ≤ n ∧ TokenStart rest ∧ Reads indents true m rest ts

/-- A line further out ends a block. -/
theorem ReadsLine.close {n' : Nat} {text : List Char} (h : ReadsLine indents n' text ts)
    (hn : n' < n) : ReadsLine (n :: indents) n text (.blockEnd :: ts) := by
  obtain ⟨m, rest, rfl, hm, hstart, hread⟩ := h
  exact ⟨m, rest, rfl, by omega, hstart, hread.close hstart (by omega)⟩

end

/-- Behind a key in a mapping at any column, the value reads as its tokens. -/
def ReadsBehindKey (t : Tree) : Prop :=
  ∀ n indents column after ts, n < column → ReadsLine (n :: indents) n after ts →
    Reads (n :: indents) false column (writeValue n t ++ after) (blockTokens t ++ ts)

/-- A record reads as its tokens where its first key stands. -/
def ReadsInPlace (t : Tree) : Prop :=
  ∀ n indents after ts, (∀ i ∈ indents.head?, i < n) →
    ReadsLine (n :: indents) n after (.blockEnd :: ts) →
      TokenStart (writeItem n t ++ after) ∧
        Reads indents true n (writeItem n t ++ after) (blockTokens t ++ ts)

theorem startsBlank_writeValue (n : Nat) (t : Tree) (after : List Char) :
    startsBlank (writeValue n t ++ after) = true := by
  cases t with
  | list ts => cases ts <;> rfl
  | map es => cases es <;> rfl
  | _ => rfl

theorem writeKey_of_fieldName {k : Key} (hk : FieldName (Json.keyText k).toList) :
    writeKey k = (Json.keyText k).toList := by
  rw [writeKey, writeText, hk.style]
  exact List.dropLast_concat

theorem tokenStart_writeKey {k : Key} (hk : FieldName (Json.keyText k).toList) (after : List Char) :
    TokenStart (writeKey k ++ after) := by
  rw [writeKey_of_fieldName hk]
  exact (PlainText.of_style hk.style).tokenStart after

section
variable {n : Nat} {indents : List Nat} {after : List Char} {ts : List Token}

/-- An entry of a mapping, the first or a later one. -/
theorem Reads.entry {indents' : List Nat} {start : List Token} {k : Key} {v : Tree}
    (hk : FieldName (Json.keyText k).toList) (hentry : Entry n indents (n :: indents') start)
    (hv : ReadsBehindKey v) (h : ReadsLine (n :: indents') n after ts) :
    Reads indents true n (writeKey k ++ ':' :: (writeValue n v ++ after))
      (start ++ ([.key, .scalar true (Json.keyText k), .value] ++ (blockTokens v ++ ts))) := by
  have hread := Reads.key hk (startsBlank_writeValue n v after) hentry
    (hv n indents' _ after ts (by omega) h)
  rw [writeKey_of_fieldName hk]
  simpa using hread

theorem ReadsLine.entries {es : List (Key × Tree)}
    (names : ∀ e ∈ es, FieldName (Json.keyText e.1).toList) (values : ∀ e ∈ es, ReadsBehindKey e.2)
    (h : ReadsLine (n :: indents) n after ts) :
    ReadsLine (n :: indents) n (writeEntries n es ++ after) (entryTokens es ++ ts) := by
  induction es with
  | nil => exact h
  | cons e es ih =>
    obtain ⟨k, v⟩ := e
    obtain ⟨hk, names⟩ := List.forall_mem_cons.1 names
    obtain ⟨hv, values⟩ := List.forall_mem_cons.1 values
    have hread := Reads.entry hk .inside hv (ih names values)
    refine ⟨n, _, ?_, Nat.le_refl n, tokenStart_writeKey hk _, by simpa [entryTokens] using hread⟩
    simp [writeEntries]

/-- The entries of a mapping from its first key on. -/
theorem ReadsInPlace.of_values {es : List (Key × Tree)} (ne_nil : es ≠ [])
    (names : ∀ e ∈ es, FieldName (Json.keyText e.1).toList)
    (values : ∀ e ∈ es, ReadsBehindKey e.2) : ReadsInPlace (.map es) := by
  intro n indents after ts houter h
  obtain ⟨⟨k, v⟩, es, rfl⟩ := List.exists_cons_of_ne_nil ne_nil
  obtain ⟨hk, names⟩ := List.forall_mem_cons.1 names
  obtain ⟨hv, values⟩ := List.forall_mem_cons.1 values
  have hread := Reads.entry hk (.outside houter) hv (h.entries names values)
  have hwritten : writeItem n (.map ((k, v) :: es)) ++ after =
      writeKey k ++ ':' :: (writeValue n v ++ (writeEntries n es ++ after)) := by
    simp [writeItem]
  rw [hwritten]
  exact ⟨tokenStart_writeKey hk _, by simpa [blockTokens, entryTokens] using hread⟩

theorem ReadsLine.items {items : List Tree} (records : ∀ t ∈ items, ReadsInPlace t)
    (h : ReadsLine (n :: indents) n after ts) :
    ReadsLine (n :: indents) n (writeItems n items ++ after) (itemTokens items ++ ts) := by
  induction items with
  | nil => exact h
  | cons t items ih =>
    obtain ⟨ht, records⟩ := List.forall_mem_cons.1 records
    have hclosed : ReadsLine ((n + 2) :: n :: indents) (n + 2) (writeItems n items ++ after)
        (.blockEnd :: (itemTokens items ++ ts)) := (ih records).close (by omega)
    obtain ⟨hstart, hread⟩ := ht (n + 2) (n :: indents) _ _ (by simp) hclosed
    have hspace : Reads (n :: indents) true (n + 1)
        (' ' :: (writeItem (n + 2) t ++ (writeItems n items ++ after)))
        (blockTokens t ++ (itemTokens items ++ ts)) := hread.space hstart
    have hdash :
        TokenStart ('-' :: ' ' :: (writeItem (n + 2) t ++ (writeItems n items ++ after))) :=
      tokenStart_cons.2 (by decide)
    refine ⟨n, _, ?_, Nat.le_refl n, hdash, by simpa [itemTokens] using hspace.item⟩
    simp [writeItems]

/-- Every tree of the shape reads back, behind its key and, if it is a record, in place. -/
theorem Nested.reads {t : Tree} (h : Nested t) :
    ReadsBehindKey t ∧ (IsRecord t → ReadsInPlace t) := by
  induction h with
  | text s =>
    refine ⟨fun n indents column after ts hcolumn hline => ?_, (absurd · (not_isRecord_text s))⟩
    obtain ⟨m, rest, rfl, hm, hstart, hread⟩ := hline
    have htext := hread.text s hm (Nat.lt_succ_of_lt hcolumn) hstart
    exact htext.space (tokenStart_writeText _ _)
  | nat k =>
    refine ⟨fun n indents column after ts hcolumn hline => ?_, (absurd · (not_isRecord_nat k))⟩
    obtain ⟨m, rest, rfl, hm, hstart, hread⟩ := hline
    have hdigits := hread.plain (plainText_toDigits k) hm (Nat.lt_succ_of_lt hcolumn) hstart
    have hspace := hdigits.space ((plainText_toDigits k).tokenStart _)
    have htokens : blockTokens (.nat k) = [.scalar true (String.ofList (Nat.toDigits 10 k))] := by
      rw [← Nat.toList_repr, String.ofList_toList]
      rfl
    have hwritten : writeValue n (.nat k) = ' ' :: (Nat.toDigits 10 k ++ ['\n']) := by
      rw [← writeScalar_nat (n + 2)]
      rfl
    simpa [hwritten, htokens] using hspace
  | @list items records _ ih =>
    refine ⟨fun n indents column after ts hcolumn hline => ?_,
      (absurd · (not_isRecord_list items))⟩
    cases items with
    | nil =>
      obtain ⟨m, rest, rfl, hm, hstart, hread⟩ := hline
      have hbrackets := hread.emptyList (Nat.lt_succ_of_lt hcolumn) hstart
      exact hbrackets.space (tokenStart_cons.2 (by decide))
    | cons t items =>
      have hrecords : ∀ u ∈ t :: items, ReadsInPlace u := fun u hu => (ih u hu).2 (records u hu)
      obtain ⟨m, rest, heq, hm, hstart, hread⟩ := hline.items hrecords
      have hwritten : writeValue n (.list (t :: items)) ++ after = '\n' :: (spaces m ++ rest) := by
        rw [← heq]
        rfl
      rw [hwritten]
      exact hread.lineEnd hstart
  | @map es ne_nil names values ih =>
    have hplace : ReadsInPlace (.map es) := .of_values ne_nil names fun e he => (ih e he).1
    refine ⟨fun n indents column after ts hcolumn hline => ?_, fun _ => hplace⟩
    obtain ⟨⟨k, v⟩, es, rfl⟩ := List.exists_cons_of_ne_nil ne_nil
    have hclosed : ReadsLine ((n + 2) :: n :: indents) (n + 2) after (.blockEnd :: ts) :=
      hline.close (by omega)
    obtain ⟨hstart, hread⟩ := hplace (n + 2) (n :: indents) after ts (by simp) hclosed
    have hwritten : writeValue n (.map ((k, v) :: es)) ++ after =
        '\n' :: (spaces (n + 2) ++ (writeItem (n + 2) (.map ((k, v) :: es)) ++ after)) := by
      simp [writeValue, writeEntries, writeItem]
    rw [hwritten]
    exact hread.lineEnd hstart

end

end GuidedDataflow.Yaml
