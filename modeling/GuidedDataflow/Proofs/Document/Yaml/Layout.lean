import GuidedDataflow.Proofs.Document.Yaml.Literal
import GuidedDataflow.Proofs.Document.Yaml.Plain
import GuidedDataflow.Proofs.Document.Yaml.Quoted

/-!
The tokens of text in block style, one piece of the text after the other. Between two pieces the
lexer is given by the columns of the open blocks, by its own column and by whether a key may begin.
What comes before a piece has no influence on it, so each piece puts its tokens in front of those of
the rest.
-/

namespace GuidedDataflow.Yaml

/-- The text is over, or a token begins here. -/
def TokenStart (rest : List Char) : Prop :=
  ∀ c ∈ rest.head?, isBlankOrBreak c = false ∧ c ≠ '#' ∧ c ≠ '\uFEFF'

theorem tokenStart_nil : TokenStart [] := fun _ h => nomatch h

theorem tokenStart_cons {c : Char} {cs : List Char} :
    TokenStart (c :: cs) ↔ isBlankOrBreak c = false ∧ c ≠ '#' ∧ c ≠ '\uFEFF' := by
  simp [TokenStart]

theorem TokenStart.solid {rest : List Char} (h : TokenStart rest) : Solid rest :=
  fun c hc => (h c hc).1

theorem PlainText.tokenStart {cs : List Char} (h : PlainText cs) (after : List Char) :
    TokenStart (cs ++ after) := by
  obtain ⟨c, cs, rfl⟩ := List.exists_cons_of_ne_nil h.ne_nil
  refine tokenStart_cons.2
    ⟨solid_cons.1 (h.words.solid_append []), by simpa using h.head_ne_hash, ?_⟩
  rintro rfl
  cases h.printable _ (List.mem_cons_self ..)

theorem insertIdx_length_append {α : Type} (before after : List α) (a : α) :
    (before ++ after).insertIdx before.length a = before ++ a :: after := by
  induction before with
  | nil => exact List.insertIdx_zero
  | cons b before ih => simp [ih]

/-- What a key at column `column` opens: nothing inside of a mapping at this column, and a mapping
further in than all others. -/
inductive Entry (column : Nat) : List Nat → List Nat → List Token → Prop where
  | inside {indents : List Nat} : Entry column (column :: indents) (column :: indents) []
  | outside {indents : List Nat} (h : ∀ i ∈ indents.head?, i < column) :
    Entry column indents (column :: indents) [.blockMappingStart]

theorem Entry.head_le {column : Nat} {indents indents' : List Nat} {start : List Token}
    (h : Entry column indents indents' start) : ∀ i ∈ indents.head?, i ≤ column := by
  cases h with
  | inside => simp
  | outside h => exact fun i hi => Nat.le_of_lt (h i hi)

namespace Source

variable {rest : List Char} {index line column : Nat}

theorem skipOrderMark_of_start (h : TokenStart rest) (n : Nat) :
    skipOrderMark ⟨spaces n ++ rest, index, line, column⟩ =
      ⟨spaces n ++ rest, index, line, column⟩ := by
  have hhead : (spaces n ++ rest).head? ≠ some '\uFEFF' := by
    cases n with
    | zero => exact fun hhead => (h _ hhead).2.2 rfl
    | succ n => simp [spaces_succ]
  simp only [skipOrderMark]
  split
  · rename_i heq
    simp [heq] at hhead
  · rfl

theorem skipComment_of_start (h : TokenStart rest) :
    skipComment ⟨rest, index, line, column⟩ = ⟨rest, index, line, column⟩ := by
  simp only [skipComment]
  split
  · exact absurd rfl (h '#' rfl).2.1
  · rfl

end Source

namespace Lexer

/-- Spaces before a token are passed over. -/
theorem skipToToken_spaces {rest : List Char} (h : TokenStart rest) (n : Nat) {l : Lexer}
    (hrest : l.source.rest = spaces n ++ rest) (fuel : Nat) :
    skipToToken (fuel + 1) l =
      { l with source := ⟨rest, l.source.index + n, l.source.line, l.source.column + n⟩ } := by
  obtain ⟨⟨source, index, line, column⟩, indents, outerKeys, possibleKey, keyAllowed, tokens⟩ := l
  obtain rfl : source = spaces n ++ rest := hrest
  let blank (c : Char) : Bool := c = ' ' || (c = '\t' && (!outerKeys.isEmpty || !keyAllowed))
  have hblank : (spaces n ++ rest).takeWhile blank = spaces n := by
    rw [List.takeWhile_append_of_pos fun c hc => by simp [blank, List.eq_of_mem_replicate hc]]
    cases rest with
    | nil => simp
    | cons c cs =>
      have hc := (Bool.or_eq_false_iff.1 (Bool.or_eq_false_iff.1 (tokenStart_cons.1 h).1).1)
      simp [blank, of_decide_eq_false hc.1, of_decide_eq_false hc.2]
  have hskip : (Source.skipWhile ⟨spaces n ++ rest, index, line, column⟩ blank).skipComment =
      ⟨rest, index + n, line, column + n⟩ := by
    simp only [Source.skipWhile, hblank, length_spaces, Source.advance]
    rw [List.drop_left' (length_spaces n), Source.skipComment_of_start h]
  rw [skipToToken]
  simp only [Source.skipOrderMark_of_start h, inFlow]
  rw [show (Source.skipWhile ⟨spaces n ++ rest, index, line, column⟩ _).skipComment = _ from hskip]
  cases rest with
  | nil => rfl
  | cons c cs => simp [(Bool.or_eq_false_iff.1 (tokenStart_cons.1 h).1).2]

/-- A line end outside of brackets and braces allows for a key. -/
theorem skipToToken_lineEnd {rest : List Char} {l : Lexer} (hrest : l.source.rest = '\n' :: rest)
    (hflow : l.outerKeys = []) (fuel : Nat) :
    skipToToken (fuel + 1) l =
      skipToToken fuel
        { l with
          source := ⟨rest, l.source.index + 1, l.source.line + 1, 0⟩
          keyAllowed := true } := by
  obtain ⟨⟨source, index, line, column⟩, indents, outerKeys, possibleKey, keyAllowed, tokens⟩ := l
  obtain rfl : source = '\n' :: rest := hrest
  obtain rfl : outerKeys = [] := hflow
  rw [skipToToken]
  simp [Source.skipOrderMark, Source.skipWhile, Source.advance, Source.skipComment, inFlow, isBreak,
    Source.breakLength, Source.newLine]

theorem dropStale?_of_fresh {l : Lexer}
    (h : ∀ k ∈ l.possibleKey :: l.outerKeys, k.any l.isStale = false) : l.dropStale? = some l := by
  have hrefresh : ∀ k ∈ l.possibleKey :: l.outerKeys, (k.filter fun m => !l.isStale m) = k := by
    intro k hk
    have hfresh := h k hk
    cases k with
    | none => rfl
    | some m => simpa using hfresh
  obtain ⟨hkey, houter⟩ := List.forall_mem_cons.1 hrefresh
  have hnone : ((l.possibleKey :: l.outerKeys).any fun k =>
      k.any l.isStale && k.any (·.required)) = false := by
    rw [List.any_eq_false]
    intro k hk
    simp [h k hk]
  simp only [dropStale?, hnone, hkey, Bool.false_eq_true, if_false]
  rw [List.map_congr_left houter, List.map_id']

/-- No block ends before column `column` where the innermost one begins no further in. -/
theorem closeBlocks_of_le {l : Lexer} {column : Nat} (h : ∀ i ∈ l.indents.head?, i ≤ column) :
    l.closeBlocks (some column) = l := by
  have hinner : (l.indents.takeWhile fun i => (some column).all (· < i)) = [] := by
    cases hindents : l.indents with
    | nil => rfl
    | cons i indents =>
      have := h i (by rw [hindents]; rfl)
      simp [Nat.not_lt.2 this]
  simp only [closeBlocks, hinner]
  split <;> simp

/-- A block that begins further in than column `column` is closed. -/
theorem closeBlocks_cons {s : Source} {i column : Nat} (hi : column < i) (indents : List Nat)
    (keyAllowed : Bool) (before : List Token) :
    closeBlocks ⟨s, i :: indents, [], none, keyAllowed, before.toArray⟩ (some column) =
      closeBlocks ⟨s, indents, [], none, keyAllowed, (before ++ [Token.blockEnd]).toArray⟩
        (some column) := by
  simp only [closeBlocks, inFlow, List.isEmpty_nil, Bool.not_true, Bool.false_eq_true, if_false,
    Option.all_some]
  rw [List.takeWhile_cons_of_pos (by simpa using hi)]
  simp [← List.toArray_replicate, List.replicate_succ]

/-- Without white space in front, the next token is read at once. -/
theorem run?_token {l : Lexer} {c : Char} {rest : List Char} (hrest : l.source.rest = c :: rest)
    (hstart : TokenStart (c :: rest))
    (hkeys : ∀ k ∈ l.possibleKey :: l.outerKeys, k.any l.isStale = false)
    (hindents : ∀ i ∈ l.indents.head?, i ≤ l.source.column) (fuel : Nat) :
    run? (fuel + 1) l = (l.next? c rest).bind (run? fuel) := by
  have hskip : skipToToken (l.source.rest.length + 1) l = l := by
    rw [← hrest] at hstart
    exact skipToToken_spaces hstart 0 rfl _
  rw [run?, hskip, dropStale?_of_fresh hkeys]
  simp only [Option.bind_eq_bind, Option.bind_some, closeBlocks_of_le hindents, hrest]

/-- Behind a colon no key may begin. -/
theorem markKey?_value {l : Lexer} (h : l.keyAllowed = false) : l.markKey? = some l := by
  simp [markKey?, h]

/-- Text that may be written plain is read as a plain scalar. -/
theorem next?_plain {l : Lexer} {c : Char} {cs after : List Char}
    (hblank : isBlankOrBreak c = false) (hindicator : startsWithIndicator (c :: cs) = false)
    (hmarker : l.source.atDocumentMarker = false) (hflow : l.outerKeys = []) :
    l.next? c (cs ++ after) = l.plainScalar? := by
  obtain ⟨hstart, hend⟩ := Bool.or_eq_false_iff.1 hmarker
  simp only [startsWithIndicator, List.contains_cons, List.contains_nil, Bool.or_eq_false_iff,
    beq_eq_false_iff_ne, Bool.and_eq_false_iff] at hindicator
  obtain ⟨⟨⟨hothers, hentry⟩, -⟩, -⟩ := hindicator
  -- The indicators that may begin text are those with something behind them.
  have hfollowed (h : c = '?' ∨ c = ':' ∨ c = '-') : startsBlank (cs ++ after) = false := by
    have hcs : startsBlank cs = false := hentry.resolve_left fun hnone => by
      obtain ⟨h1, h2, h3, -⟩ := hnone
      exact h.elim h1 fun h => h.elim h2 h3
    have hne : cs ≠ [] := by
      rintro rfl
      cases hcs
    rwa [startsBlank_append hne]
  generalize cs ++ after = rest at hfollowed
  have hnotSpace (h : c = '-') : rest.head?.any isSpaceOrTab = false := by
    have hrest := hfollowed (.inr (.inr h))
    cases rest with
    | nil => rfl
    | cons d ds => exact (Bool.or_eq_false_iff.1 hrest).1
  have hplain : startsPlain false c rest = true := by
    by_cases h : c = '?' ∨ c = ':' ∨ c = '-'
    · have hrest := hfollowed h
      rcases h with rfl | rfl | rfl
      · simp [startsPlain, hrest]
      · simp [startsPlain, hrest]
      · simp [startsPlain, hnotSpace rfl]
    · simp only [not_or] at h
      simp [startsPlain, hblank, hothers, h]
  have hdash : ¬(c = '-' ∧ startsBlank rest = true) := fun h => by
    simp [hfollowed (.inr (.inr h.1))] at h
  have hquestion : ¬(c = '?' ∧ startsBlank rest = true) := fun h => by
    simp [hfollowed (.inl h.1)] at h
  have hcolon : ¬(c = ':' ∧ startsBlank rest = true) := fun h => by
    simp [hfollowed (.inr (.inl h.1))] at h
  simp [next?, hstart, hend, hplain, inFlow, hflow, hothers, hdash, hquestion, hcolon]

/-- The start of a key is remembered with the key's text as a scalar. -/
theorem next?_key {k : List Char} (hk : FieldName k) {after : List Char}
    (hafter : startsBlank after = true) (index line column : Nat) (indents : List Nat)
    (before : List Token) :
    ∃ c rest required, k ++ ':' :: after = c :: rest ∧ TokenStart (c :: rest) ∧
      next? ⟨⟨c :: rest, index, line, column⟩, indents, [], none, true, before.toArray⟩ c rest =
        some ⟨⟨':' :: after, index + k.length, line, column + k.length⟩, indents, [],
          some ⟨before.length, required, index, line, column⟩, false,
          (before ++ [Token.scalar true (String.ofList k)]).toArray⟩ := by
  obtain ⟨c, cs, rfl⟩ := List.exists_cons_of_ne_nil hk.word.ne_nil
  have hblank : isBlankOrBreak c = false := hk.word.solid c (List.mem_cons_self ..)
  have hletter : ∀ d : Char, d.isAlpha = false → d ≠ '_' → c ≠ d := by
    rintro d halpha hunderscore rfl
    simpa [halpha, hunderscore] using hk.letters c (List.mem_cons_self ..)
  have hmarker :
      Source.atDocumentMarker ⟨c :: (cs ++ ':' :: after), index, line, column⟩ = false := by
    simp [Source.atDocumentMarker, Source.atDocumentStart, Source.atDocumentEnd, Source.atMarker,
      Ne.symm (hletter '-' (by decide) (by decide)), Ne.symm (hletter '.' (by decide) (by decide))]
  have hhash : c ≠ '#' := hletter '#' (by decide) (by decide)
  have hscan : ∀ indent fuel, scanPlain? false indent (fuel + 1)
      ⟨c :: (cs ++ ':' :: after), index, line, column⟩ [] .empty = _ := fun indent fuel =>
    scanPlain?_colon hk.word hafter hmarker (by simpa using hhash)
  refine ⟨c, cs ++ ':' :: after, decide (indents.head? = some column), rfl,
    (PlainText.of_style hk.style).tokenStart _, ?_⟩
  rw [next?_plain hblank (PlainText.of_style hk.style).not_startsWithIndicator hmarker rfl]
  simp only [plainScalar?, markKey?, inFlow, dropKey?, List.isEmpty_nil, Bool.not_true,
    Bool.false_eq_true, if_false, Option.any_none, Option.bind_eq_bind, Option.bind_some,
    Option.pure_def, hscan, Bool.not_false, Bool.true_and]
  simp only [pushScalar, push, List.push_toArray]
  rfl

/-- A colon behind the text of a key opens the key, and a mapping if there is none at its column. -/
theorem next?_value {after : List Char} (hafter : startsBlank after = true) {mark : KeyMark}
    {indents indents' : List Nat} {before start : List Token} {t : Token}
    (hmark : mark.position = before.length) (hentry : Entry mark.column indents indents' start)
    {index line column : Nat} (hcolumn : column ≠ 0) :
    next? ⟨⟨':' :: after, index, line, column⟩, indents, [], some mark, false,
        (before ++ [t]).toArray⟩ ':' after =
      some ⟨⟨after, index + 1, line, column + 1⟩, indents', [], none, false,
        (before ++ (start ++ [.key, t, .value])).toArray⟩ := by
  have hkey : ((before ++ [t]).toArray).insertIdxIfInBounds mark.position Token.key =
      (before ++ [Token.key, t]).toArray := by
    simp [Array.insertIdxIfInBounds, hmark, insertIdx_length_append]
  have hstart : ((before ++ [Token.key, t]).toArray).insertIdxIfInBounds mark.position
      Token.blockMappingStart = (before ++ [Token.blockMappingStart, Token.key, t]).toArray := by
    simp [Array.insertIdxIfInBounds, hmark, insertIdx_length_append]
  have hnext : next? ⟨⟨':' :: after, index, line, column⟩, indents, [], some mark, false,
      (before ++ [t]).toArray⟩ ':' after = value? ⟨⟨':' :: after, index, line, column⟩, indents, [],
      some mark, false, (before ++ [t]).toArray⟩ := by
    simp [next?, Source.atDocumentStart, Source.atDocumentEnd, Source.atMarker, hcolumn, hafter,
      inFlow]
  rw [hnext]
  simp only [value?, hkey]
  cases hentry with
  | inside =>
    simp [openBlock, inFlow, contentColumn, push, Source.advance]
  | outside h =>
    have hopen : ¬mark.column < contentColumn ⟨⟨':' :: after, index, line, column⟩, indents, [],
        some mark, false, (before ++ [Token.key, t]).toArray⟩ := by
      cases indents with
      | nil => exact Nat.not_lt_zero _
      | cons i indents => exact Nat.not_lt.2 (h i rfl)
    simp only [openBlock, inFlow, List.isEmpty_nil, Bool.not_true, Bool.false_or, decide_eq_true_eq,
      if_neg hopen, hstart]
    simp [push, Source.advance]

end Lexer

/-- From the text `rest` at column `column` on, the tokens are `ts`. -/
def Reads (indents : List Nat) (keyAllowed : Bool) (column : Nat) (rest : List Char)
    (ts : List Token) : Prop :=
  ∀ index line fuel (before : List Token), rest.length < fuel →
    Lexer.run? fuel ⟨⟨rest, index, line, column⟩, indents, [], none, keyAllowed, before.toArray⟩ =
      some (before ++ ts).toArray

namespace Reads

variable {indents : List Nat} {keyAllowed : Bool} {column m : Nat} {rest : List Char}
  {ts : List Token}

theorem of_skip {more : List Char} {keyAllowed' : Bool} {column' : Nat}
    (hlength : rest.length ≤ more.length) (h : Reads indents keyAllowed' column' rest ts)
    (hskip : ∀ index line before, ∃ index' line',
      Lexer.skipToToken (more.length + 1)
          ⟨⟨more, index, line, column⟩, indents, [], none, keyAllowed, before⟩ =
        Lexer.skipToToken (rest.length + 1)
          ⟨⟨rest, index', line', column'⟩, indents, [], none, keyAllowed', before⟩) :
    Reads indents keyAllowed column more ts := by
  intro index line fuel before hfuel
  obtain ⟨fuel, rfl⟩ := Nat.exists_eq_add_one.2 (Nat.zero_lt_of_lt hfuel)
  obtain ⟨index', line', hskip⟩ := hskip index line before.toArray
  have hread := h index' line' (fuel + 1) before (by omega)
  rw [Lexer.run?] at hread ⊢
  rwa [hskip]

theorem spaces_append (h : Reads indents keyAllowed (column + m) rest ts)
    (hstart : TokenStart rest) : Reads indents keyAllowed column (spaces m ++ rest) ts :=
  h.of_skip (by simp) fun index line before => ⟨index + m, line, by
    rw [Lexer.skipToToken_spaces hstart m rfl, Lexer.skipToToken_spaces hstart 0 rfl]
    rfl⟩

theorem space (h : Reads indents keyAllowed (column + 1) rest ts) (hstart : TokenStart rest) :
    Reads indents keyAllowed column (' ' :: rest) ts :=
  spaces_append (m := 1) h hstart

/-- Behind a line end the text goes on at the indentation of the next line. -/
theorem lineEnd (h : Reads indents true m rest ts) (hstart : TokenStart rest) :
    Reads indents keyAllowed column ('\n' :: (spaces m ++ rest)) ts :=
  h.of_skip (by simp; omega) fun index line before => ⟨index + 1 + m, line + 1, by
    rw [Lexer.skipToToken_lineEnd rfl rfl, List.length_cons,
      Lexer.skipToToken_spaces hstart m rfl, Lexer.skipToToken_spaces hstart 0 rfl]
    simp⟩

/-- A block further in than the next token is over. -/
theorem close {i : Nat} (h : Reads indents keyAllowed column rest ts) (hstart : TokenStart rest)
    (hi : column < i) : Reads (i :: indents) keyAllowed column rest (.blockEnd :: ts) := by
  intro index line fuel before hfuel
  have hread := h index line fuel (before ++ [.blockEnd]) hfuel
  obtain ⟨fuel, rfl⟩ := Nat.exists_eq_add_one.2 (Nat.zero_lt_of_lt hfuel)
  rw [Lexer.run?, Lexer.skipToToken_spaces hstart 0 rfl,
    Lexer.dropStale?_of_fresh (by simp)] at hread ⊢
  simp only [Option.bind_eq_bind, Option.bind_some, Nat.add_zero] at hread ⊢
  rw [Lexer.closeBlocks_cons hi]
  simpa using hread

/-- At the end of the text all blocks are over. -/
theorem nil (h : ∀ i ∈ indents.head?, i ≤ column) :
    Reads indents keyAllowed column [] (List.replicate indents.length .blockEnd) := by
  intro index line fuel before hfuel
  obtain ⟨fuel, rfl⟩ := Nat.exists_eq_add_one.2 (Nat.zero_lt_of_lt hfuel)
  rw [Lexer.run?, Lexer.skipToToken_spaces tokenStart_nil 0 rfl,
    Lexer.dropStale?_of_fresh (by simp)]
  simp only [Option.bind_eq_bind, Option.bind_some, Nat.add_zero]
  rw [Lexer.closeBlocks_of_le h]
  have hall (indents : List Nat) : indents.takeWhile (fun _ => true) = indents := by
    induction indents with
    | nil => rfl
    | cons i indents ih => rw [List.takeWhile_cons_of_pos rfl, ih]
  simp [Lexer.finish?, Lexer.closeBlocks, Lexer.inFlow, Lexer.dropKey?, hall,
    ← List.toArray_replicate]

/-- One token behind which the text goes on in the same way. -/
theorem of_token {c : Char} {cs : List Char} {t : Token} (hstart : TokenStart (c :: cs))
    (hindents : ∀ i ∈ indents.head?, i ≤ column) (hlength : rest.length ≤ cs.length)
    (hnext : ∀ index line (before : List Token), ∃ (s : Source) (indents' : List Nat)
      (keyAllowed' : Bool), s.rest = rest ∧ Reads indents' keyAllowed' s.column rest ts ∧
      Lexer.next? ⟨⟨c :: cs, index, line, column⟩, indents, [], none, keyAllowed, before.toArray⟩ c
          cs = some ⟨s, indents', [], none, keyAllowed', (before ++ [t]).toArray⟩) :
    Reads indents keyAllowed column (c :: cs) (t :: ts) := by
  intro index line fuel before hfuel
  obtain ⟨fuel, rfl⟩ := Nat.exists_eq_add_one.2 (Nat.zero_lt_of_lt hfuel)
  obtain ⟨s, indents', keyAllowed', rfl, h, hnext⟩ := hnext index line before
  rw [List.length_cons] at hfuel
  rw [Lexer.run?_token rfl hstart (by simp) hindents, hnext, Option.bind_some,
    h s.index s.line fuel (before ++ [t]) (by omega), List.append_assoc]
  rfl

/-- An item of a list that stands at the column of its mapping. -/
theorem item {n : Nat} {indents : List Nat}
    (h : Reads (n :: indents) true (n + 1) (' ' :: rest) ts) :
    Reads (n :: indents) true n ('-' :: ' ' :: rest) (.blockEntry :: ts) := by
  refine of_token (tokenStart_cons.2 (by decide)) (by simp) (Nat.le_refl _)
    fun index line before =>
      ⟨⟨' ' :: rest, index + 1, line, n + 1⟩, n :: indents, true, rfl, h, ?_⟩
  simp [Lexer.next?, Source.atDocumentStart, Source.atDocumentEnd, Source.atMarker, startsBlank,
    isBlankOrBreak, isSpaceOrTab, Lexer.blockEntry?, Lexer.openEntry?, Lexer.inFlow,
    Lexer.openBlock, Lexer.contentColumn, Lexer.dropKey?, Lexer.push, Source.advance]

/-- A key with its colon. -/
theorem key {k after : List Char} {indents' : List Nat} {start : List Token} (hk : FieldName k)
    (hafter : startsBlank after = true) (hentry : Entry column indents indents' start)
    (h : Reads indents' false (column + k.length + 1) after ts) :
    Reads indents true column (k ++ ':' :: after)
      (start ++ [.key, .scalar true (String.ofList k), .value] ++ ts) := by
  intro index line fuel before hfuel
  obtain ⟨c, rest, required, heq, hstart, hnext⟩ :=
    Lexer.next?_key hk hafter index line column indents before
  have hshort := hk.short
  have hlength : (k ++ ':' :: after).length = k.length + after.length + 1 := by simp; omega
  rw [hlength] at hfuel
  have hpos := List.length_pos_iff.2 hk.word.ne_nil
  obtain ⟨fuel, rfl⟩ := Nat.exists_eq_add_of_le' (show 2 ≤ fuel by omega)
  rw [heq, Lexer.run?_token rfl hstart (by simp) hentry.head_le, hnext, Option.bind_some]
  -- The colon comes on the line of the key, and soon enough.
  have hfresh : ∀ k' ∈ [some (⟨before.length, required, index, line, column⟩ : KeyMark)],
      k'.any (Lexer.isStale ⟨⟨':' :: after, index + k.length, line, column + k.length⟩, indents, [],
        k', false, (before ++ [Token.scalar true (String.ofList k)]).toArray⟩) = false := by
    simp [Lexer.isStale]
    omega
  rw [Lexer.run?_token rfl (tokenStart_cons.2 (by decide)) (by simpa using hfresh)
      (fun i hi => Nat.le_trans (hentry.head_le i hi) (Nat.le_add_right _ _)),
    Lexer.next?_value hafter rfl hentry (by simp [hk.word.ne_nil]), Option.bind_some,
    h _ _ _ _ (by omega)]
  simp

section
variable {n : Nat} {indents : List Nat} {cs more : List Char}

/-- Plain text behind a key, up to the next line. -/
theorem plain (hcs : PlainText cs) (hm : m ≤ n) (hcolumn : n < column) (hstart : TokenStart rest)
    (h : Reads (n :: indents) true m rest ts) :
    Reads (n :: indents) false column (cs ++ '\n' :: (spaces m ++ rest))
      (.scalar true (String.ofList cs) :: ts) := by
  obtain ⟨c, cs, rfl⟩ := List.exists_cons_of_ne_nil hcs.ne_nil
  have hstartText := hcs.tokenStart ('\n' :: (spaces m ++ rest))
  have hmarker {index line : Nat} : Source.atDocumentMarker
      ⟨c :: (cs ++ '\n' :: (spaces m ++ rest)), index, line, column⟩ = false :=
    atDocumentMarker_of_pos (by omega)
  have hscan (index line fuel : Nat) (hfuel : (c :: cs).length ≤ fuel) :
      scanPlain? false (n + 1) fuel
        ⟨c :: (cs ++ '\n' :: (spaces m ++ rest)), index, line, column⟩ [] .empty = _ :=
    scanPlain?_words hcs.words hcs.head_ne_hash (Nat.lt_succ_of_le hm) hstart.solid hcolumn hfuel
  rw [List.cons_append]
  refine of_token hstartText (by simp; omega) (by simp; omega) fun index line before =>
      ⟨⟨rest, index + (c :: cs).length + 1 + m, line + 1, m⟩, n :: indents, true, rfl, h, ?_⟩
  rw [Lexer.next?_plain (tokenStart_cons.1 hstartText).1 hcs.not_startsWithIndicator hmarker rfl,
    Lexer.plainScalar?, Lexer.markKey?_value rfl, Option.bind_eq_bind, Option.bind_some]
  simp only [Lexer.inFlow, Lexer.contentColumn, List.isEmpty_nil, Bool.not_true]
  rw [hscan _ _ _ (by simp; omega)]
  simp only [Lexer.pushScalar, Lexer.push, List.push_toArray]
  rfl

/-- Quoted text behind a key. -/
theorem quoted {double : Bool} (hcs : ReadsQuoted double more cs ('\n' :: (spaces m ++ rest)))
    (hlength : ('\n' :: (spaces m ++ rest)).length ≤ more.length) (hcolumn : n < column)
    (hstart : TokenStart rest) (h : Reads (n :: indents) true m rest ts) :
    Reads (n :: indents) false column ((if double then '"' else '\'') :: more)
      (.scalar false (String.ofList cs) :: ts) := by
  have hne : column ≠ 0 := by omega
  refine of_token (tokenStart_cons.2 (by cases double <;> decide)) (by simp; omega) hlength
    fun index line before => ?_
  obtain ⟨s, hs, hread⟩ :=
    hcs (index + 1) line (column + 1) (more.length + 2) [] (by omega) (by omega)
  refine ⟨s, n :: indents, false, hs, h.lineEnd hstart, ?_⟩
  have hscan (c : Char) : (Lexer.mk ⟨c :: more, index, line, column⟩ (n :: indents) [] none false
      before.toArray).quotedScalar? double =
      some ⟨s, n :: indents, [], none, false,
        (before ++ [Token.scalar false (String.ofList cs)]).toArray⟩ := by
    rw [Lexer.quotedScalar?, Lexer.markKey?_value rfl]
    simp only [Option.bind_eq_bind, Option.bind_some, Source.advance, List.drop_succ_cons,
      List.drop_zero, List.length_cons]
    rw [hread]
    simp [Lexer.pushScalar, Lexer.push]
  cases double <;>
    simp [Lexer.next?, Source.atDocumentStart, Source.atDocumentEnd, Source.atMarker, hne, hscan]

/-- A literal block behind a key. -/
theorem literal (hprintable : ∀ c ∈ cs, isPrintable c = true) (hne : cs ≠ []) (hm : m ≤ n)
    (hcolumn : n < column) (hstart : TokenStart rest) (h : Reads (n :: indents) true m rest ts) :
    Reads (n :: indents) false column
      (literalHeader cs ++ '\n' :: (literalLines (n + 2) true cs ++ (spaces m ++ rest)))
      (.scalar false (String.ofList cs) :: ts) := by
  have hzero : column ≠ 0 := by omega
  have hlines : LineStart (n + 2) m rest := by
    refine ⟨by omega, fun c hc => ?_⟩
    obtain ⟨hspace, hbreak⟩ := Bool.or_eq_false_iff.1 (hstart c hc).1
    refine ⟨⟨hbreak, ?_⟩, ?_⟩ <;> rintro rfl <;> cases hspace
  obtain ⟨header, hheader, hblock⟩ := ReadsBlock.literal hprintable hne (by omega) hlines
  have hlength : rest.length ≤
      (header ++ '\n' :: (literalLines (n + 2) true cs ++ (spaces m ++ rest))).length := by
    simp
    omega
  rw [hheader, List.cons_append]
  refine of_token (tokenStart_cons.2 (by decide)) (by simp; omega) hlength
    fun index line before => ?_
  obtain ⟨s, hs, hsm, hread⟩ := hblock (index + 1) line (column + 1)
  refine ⟨s, n :: indents, true, hs, hsm ▸ h, ?_⟩
  simp [Lexer.next?, Source.atDocumentStart, Source.atDocumentEnd, Source.atMarker, hzero,
    Lexer.inFlow, Lexer.blockScalar?, Lexer.dropKey?, Source.advance, hread, Lexer.pushScalar,
    Lexer.push]

/-- An empty list behind a key is written in brackets. -/
theorem emptyList (hcolumn : n < column) (hstart : TokenStart rest)
    (h : Reads (n :: indents) true m rest ts) :
    Reads (n :: indents) false column ('[' :: ']' :: '\n' :: (spaces m ++ rest))
      (.flowSequenceStart :: .flowSequenceEnd :: ts) := by
  have hzero : column ≠ 0 := by omega
  intro index line fuel before hfuel
  simp only [List.length_cons] at hfuel
  obtain ⟨fuel, rfl⟩ := Nat.exists_eq_add_of_le' (show 2 ≤ fuel by omega)
  have hopen : Lexer.next? ⟨⟨'[' :: ']' :: '\n' :: (spaces m ++ rest), index, line, column⟩,
      n :: indents, [], none, false, before.toArray⟩ '[' (']' :: '\n' :: (spaces m ++ rest)) =
      some ⟨⟨']' :: '\n' :: (spaces m ++ rest), index + 1, line, column + 1⟩, n :: indents, [none],
        none, true, (before ++ [Token.flowSequenceStart]).toArray⟩ := by
    simp [Lexer.next?, Source.atDocumentStart, Source.atDocumentEnd, Source.atMarker, hzero,
      Lexer.openFlow?, Lexer.markKey?, Lexer.push, Source.advance]
  have hclose : Lexer.next? ⟨⟨']' :: '\n' :: (spaces m ++ rest), index + 1, line, column + 1⟩,
      n :: indents, [none], none, true, (before ++ [Token.flowSequenceStart]).toArray⟩ ']'
        ('\n' :: (spaces m ++ rest)) =
      some ⟨⟨'\n' :: (spaces m ++ rest), index + 2, line, column + 2⟩, n :: indents, [], none,
        false, (before ++ [Token.flowSequenceStart, Token.flowSequenceEnd]).toArray⟩ := by
    simp [Lexer.next?, Source.atDocumentStart, Source.atDocumentEnd, Source.atMarker,
      Lexer.closeFlow?, Lexer.dropKey?, Lexer.push, Source.advance]
  rw [Lexer.run?_token rfl (tokenStart_cons.2 (by decide)) (by simp) (by simp; omega), hopen,
    Option.bind_some,
    Lexer.run?_token rfl (tokenStart_cons.2 (by decide)) (by simp) (by simp; omega), hclose,
    Option.bind_some, h.lineEnd hstart _ _ _ _ (by simp only [List.length_cons]; omega)]
  simp

end

end Reads

end GuidedDataflow.Yaml
