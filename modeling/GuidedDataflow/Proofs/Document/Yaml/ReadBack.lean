import GuidedDataflow.Proofs.Document.Yaml.Parsing

/-!
Documents read back. All that is written can be printed, so the text is accepted, and a record is
read as the node that stands for it.
-/

namespace GuidedDataflow.Yaml

/-- Text without characters that could not be written as they are. -/
def Printable (cs : List Char) : Prop := ∀ c ∈ cs, isPrintable c = true

theorem isAllowed_of_isPrintable {c : Char} (h : isPrintable c = true) : isAllowed c = true := by
  have hvalid := c.valid
  simp only [isPrintable, isAllowed, Bool.or_eq_true, Bool.and_eq_true, decide_eq_true_eq] at h ⊢
  simp only [UInt32.isValidChar, Nat.isValidChar] at hvalid
  change c.toNat < 0xD800 ∨ 0xDFFF < c.toNat ∧ c.toNat < 0x110000 at hvalid
  omega

namespace Printable

variable {cs ds : List Char}

theorem nil : Printable [] := fun _ h => nomatch h

theorem append (h : Printable cs) (h' : Printable ds) : Printable (cs ++ ds) :=
  List.forall_mem_append.2 ⟨h, h'⟩

theorem cons {c : Char} (hc : isPrintable c = true) (h : Printable cs) : Printable (c :: cs) :=
  List.forall_mem_cons.2 ⟨hc, h⟩

theorem spaces (n : Nat) : Printable (spaces n) := fun c hc => by
  rw [List.eq_of_mem_replicate hc]
  rfl

theorem hexDigits (width n : Nat) : Printable (hexDigits width n) := by
  have hdigit : ∀ d : Fin 16, isPrintable (Json.hexDigit d).toUpper = true := by decide
  induction width generalizing n with
  | zero => exact nil
  | succ width ih =>
    exact (ih _).append (cons (hdigit ⟨n % 16, Nat.mod_lt n (by decide)⟩) nil)

theorem escapeDouble (c : Char) : Printable (escapeDouble c) := by
  have hletter {letter : Char} (h : escapeLetter? c = some letter) : isPrintable letter = true := by
    unfold escapeLetter? at h
    split at h <;> first | (obtain rfl := Option.some.inj h; decide) | cases h
  have hslash : isPrintable '\\' = true := by decide
  unfold Yaml.escapeDouble
  cases h : escapeLetter? c with
  | some letter => exact cons hslash (cons (hletter h) nil)
  | none =>
    simp only
    split
    · rename_i hc
      exact cons hc nil
    split
    · exact cons hslash (cons (by decide) (hexDigits _ _))
    split
    · exact cons hslash (cons (by decide) (hexDigits _ _))
    · exact cons hslash (cons (by decide) (hexDigits _ _))

theorem escapeSingle (indent : Nat) (h : Printable cs) : Printable (escapeSingle indent cs) := by
  fun_induction Yaml.escapeSingle indent cs with
  | case1 => exact h
  | case2 rest ih =>
    obtain ⟨hquote, hrest⟩ := List.forall_mem_cons.1 h
    exact cons hquote (cons hquote (ih hrest))
  | case3 c rest _ _ ih =>
    obtain ⟨hc, hrest⟩ := List.forall_mem_cons.1 h
    exact cons hc ((Printable.spaces indent).append (ih hrest))
  | case4 c rest _ _ ih =>
    obtain ⟨hc, hrest⟩ := List.forall_mem_cons.1 h
    exact cons hc (ih hrest)

theorem literalLines (indent : Nat) (lineStart : Bool) (h : Printable cs) :
    Printable (literalLines indent lineStart cs) := by
  fun_induction Yaml.literalLines indent lineStart cs with
  | case1 => exact h
  | case2 => exact cons (by decide) h
  | case3 _ c rest _ ih =>
    obtain ⟨hc, hrest⟩ := List.forall_mem_cons.1 h
    exact cons hc (ih hrest)
  | case4 c rest _ ih =>
    obtain ⟨hc, hrest⟩ := List.forall_mem_cons.1 h
    exact (Printable.spaces indent).append (cons hc (ih hrest))
  | case5 _ c rest _ _ ih =>
    obtain ⟨hc, hrest⟩ := List.forall_mem_cons.1 h
    exact cons hc (ih hrest)

theorem literalHeader (cs : List Char) : Printable (literalHeader cs) := by
  have hmarks : Printable ['2', '-', '+'] :=
    cons (by decide) (cons (by decide) (cons (by decide) nil))
  have hsingle : ∀ c ∈ ['2', '-', '+'], Printable [c] := fun c hc => cons (hmarks c hc) nil
  unfold Yaml.literalHeader
  refine cons (by decide) (append ?_ ?_)
  · split <;> simp [hsingle, nil]
  · repeat' split
    all_goals simp [hsingle, nil]

theorem writeText (indent : Nat) (cs : List Char) : Printable (writeText indent cs) := by
  have hend : Printable ['\n'] := cons (by decide) nil
  have hprintable (h : styleOf cs ≠ .double) : Printable cs := (printable_of_style h).1
  unfold Yaml.writeText
  cases hstyle : styleOf cs with
  | plain => exact (hprintable (by simp [hstyle])).append hend
  | single =>
    exact cons (by decide) (((hprintable (by simp [hstyle])).escapeSingle indent).append
      (cons (by decide) hend))
  | double =>
    have hescaped : Printable (cs.flatMap Yaml.escapeDouble) := fun c hc => by
      obtain ⟨d, -, hd⟩ := List.mem_flatMap.1 hc
      exact escapeDouble d c hd
    exact cons (by decide) (hescaped.append (cons (by decide) hend))
  | literal =>
    exact (literalHeader cs).append
      (cons (by decide) ((hprintable (by simp [hstyle])).literalLines indent true))

theorem writeKey {k : Key} (hk : FieldName (Json.keyText k).toList) : Printable (writeKey k) := by
  rw [writeKey_of_fieldName hk]
  exact (PlainText.of_style hk.style).printable

theorem writeEntries {es : List (Key × Tree)} (n : Nat)
    (names : ∀ e ∈ es, FieldName (Json.keyText e.1).toList)
    (values : ∀ e ∈ es, Printable (writeValue n e.2)) : Printable (writeEntries n es) := by
  induction es with
  | nil => exact nil
  | cons e es ih =>
    obtain ⟨k, v⟩ := e
    obtain ⟨hk, names⟩ := List.forall_mem_cons.1 names
    obtain ⟨hv, values⟩ := List.forall_mem_cons.1 values
    rw [Yaml.writeEntries]
    exact (((Printable.spaces n).append (writeKey hk)).append (cons (by decide) hv)).append
      (ih names values)

theorem writeItems {ts : List Tree} (n : Nat) (items : ∀ t ∈ ts, Printable (writeItem (n + 2) t)) :
    Printable (writeItems n ts) := by
  induction ts with
  | nil => exact nil
  | cons t ts ih =>
    obtain ⟨ht, items⟩ := List.forall_mem_cons.1 items
    rw [Yaml.writeItems]
    exact ((Printable.spaces n).append (cons (by decide) (cons (by decide) ht))).append (ih items)

theorem writeValue {t : Tree} (h : Nested t) (n : Nat) :
    Printable (writeValue n t) ∧ (IsRecord t → Printable (writeItem n t)) := by
  have hend : Printable ['\n'] := cons (by decide) nil
  induction h generalizing n with
  | text s => exact ⟨cons (by decide) (writeText _ _), (absurd · (not_isRecord_text s))⟩
  | nat k =>
    refine ⟨cons (by decide) ?_, (absurd · (not_isRecord_nat k))⟩
    rw [Tree.nat, writeScalar_nat]
    exact Printable.append (plainText_toDigits k).printable hend
  | @list items records _ ih =>
    refine ⟨?_, (absurd · (not_isRecord_list items))⟩
    cases items with
    | nil => exact cons (by decide) (cons (by decide) (cons (by decide) hend))
    | cons t items =>
      exact cons (by decide) (writeItems n fun u hu => (ih u hu (n + 2)).2 (records u hu))
  | @map es ne_nil names values ih =>
    obtain ⟨⟨k, v⟩, es, rfl⟩ := List.exists_cons_of_ne_nil ne_nil
    refine ⟨cons (by decide) (writeEntries (n + 2) names fun e he => (ih e he (n + 2)).1),
      fun _ => ?_⟩
    have hentries := writeEntries n names fun e he => (ih e he n).1
    rw [Yaml.writeEntries, List.append_assoc, List.append_assoc] at hentries
    have hitem : Printable (Yaml.writeKey k ++ (':' :: Yaml.writeValue n v ++
        Yaml.writeEntries n es)) := (List.forall_mem_append.1 hentries).2
    rwa [← List.append_assoc] at hitem

end Printable

/-- Text that can be printed is cut into tokens from its first character on. -/
theorem tokens?_ofList {cs : List Char} (h : Printable cs) :
    tokens? (String.ofList cs) = (Lexer.run? (cs.length + 1) (.ofChars cs)).map Array.toList := by
  have hallowed : cs.all isAllowed = true :=
    List.all_eq_true.2 fun c hc => isAllowed_of_isPrintable (h c hc)
  rw [tokens?, String.toList_ofList]
  split
  · cases h _ (List.mem_cons_self ..)
  · simp only [hallowed, if_true]

/-- A record is read as its tokens. -/
theorem tokens?_write {t : Tree} (h : Nested t) (hrecord : IsRecord t) :
    tokens? (write t) = some (blockTokens t) := by
  obtain ⟨e, es, rfl⟩ := hrecord
  have hwritten : write (.map (e :: es)) = String.ofList (writeItem 0 (.map (e :: es))) := by
    simp [write, writeEntries, writeItem, spaces]
  have hend : ReadsLine [0] 0 [] [.blockEnd] :=
    ⟨0, [], rfl, Nat.le_refl 0, tokenStart_nil, Reads.nil (by simp)⟩
  obtain ⟨-, hread⟩ := h.reads.2 ⟨e, es, rfl⟩ 0 [] [] [] (by simp) hend
  rw [List.append_nil, List.append_nil] at hread
  rw [hwritten, tokens?_ofList ((Printable.writeValue h 0).2 ⟨e, es, rfl⟩)]
  have hrun := hread 0 0 _ [] (Nat.lt_succ_self _)
  simp only [Lexer.ofChars, Source.ofChars]
  rw [show (#[] : Array Token) = [].toArray from rfl, hrun]
  rfl

/-- A record of the shape reads back as its node, unless it nests too deep. -/
theorem read?_write {t : Tree} (h : Nested t) (hrecord : IsRecord t)
    (hdepth : (Node.ofTree t).depth ≤ Node.maxDepth) : Node.read? (write t) = some (.ofTree t) := by
  have hparse := (Node.parses_of_nested h).2 hrecord
  have hdocument : Node.document? (blockTokens t) = some (.ofTree t, []) := by
    have hread := hparse (4 * (blockTokens t).length + 4) [] (by omega)
    rwa [List.append_nil] at hread
  obtain ⟨e, es, rfl⟩ := hrecord
  have htokens :
      Node.ofTokens? (blockTokens (.map (e :: es))) = some (.ofTree (.map (e :: es))) := by
    rw [blockTokens, List.cons_append] at hdocument ⊢
    simp [Node.ofTokens?, hdocument]
  simp only [Node.read?, tokens?_write h ⟨e, es, rfl⟩, Option.bind_eq_bind, Option.bind_some,
    htokens, hdepth, if_true]

end GuidedDataflow.Yaml
