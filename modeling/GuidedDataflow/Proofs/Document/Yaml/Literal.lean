import GuidedDataflow.Proofs.Document.Yaml.Gap

/-!
Literal blocks read back. The text is cut into lines with runs of line ends behind them. What
the header says about the line ends at the end of the text is what the last line needs, and the
indentation is stated where the text itself begins with white space.
-/

namespace GuidedDataflow.Yaml

/-- A character of a line. -/
def InLine (c : Char) : Prop := isBreak c = false ∧ c ≠ '\t'

/-- Text that begins with a line, and what a block must do with the line ends at its end. -/
inductive Lines : Chomp → List Char → Prop where
  | strip {line : List Char} (hne : line ≠ []) (hline : ∀ c ∈ line, InLine c) : Lines .strip line
  | clip {line : List Char} {c : Char} (hne : line ≠ []) (hline : ∀ c ∈ line, InLine c)
    (hc : KeptBreak c) : Lines .clip (line ++ [c])
  | keep {line more : List Char} {c d : Char} (hne : line ≠ []) (hline : ∀ c ∈ line, InLine c)
    (hc : KeptBreak c) (hmore : ∀ c ∈ d :: more, KeptBreak c) : Lines .keep (line ++ c :: d :: more)
  | more {chomp : Chomp} {line more cs : List Char} {c : Char} (hne : line ≠ [])
    (hline : ∀ c ∈ line, InLine c) (hc : KeptBreak c) (hmore : ∀ c ∈ more, KeptBreak c)
    (later : Lines chomp cs) : Lines chomp (line ++ c :: more ++ cs)

namespace Lines

variable {chomp : Chomp} {cs : List Char}

theorem cons {c : Char} (h : Lines chomp cs) (hc : InLine c) : Lines chomp (c :: cs) := by
  have hcons {line : List Char} (hline : ∀ c ∈ line, InLine c) : ∀ d ∈ c :: line, InLine d :=
    List.forall_mem_cons.2 ⟨hc, hline⟩
  cases h with
  | strip hne hline => exact .strip (List.cons_ne_nil _ _) (hcons hline)
  | clip hne hline hd => exact .clip (List.cons_ne_nil _ _) (hcons hline) hd
  | keep hne hline hd hmore => exact .keep (List.cons_ne_nil _ _) (hcons hline) hd hmore
  | more hne hline hd hmore later =>
    exact .more (List.cons_ne_nil _ _) (hcons hline) hd hmore later

theorem head (h : Lines chomp cs) : ∃ c rest, cs = c :: rest ∧ InLine c := by
  have hfirst {line : List Char} (hne : line ≠ []) (hline : ∀ c ∈ line, InLine c)
      (after : List Char) : ∃ c rest, line ++ after = c :: rest ∧ InLine c := by
    obtain ⟨c, line, rfl⟩ := List.exists_cons_of_ne_nil hne
    exact ⟨c, line ++ after, rfl, hline c (List.mem_cons_self ..)⟩
  cases h with
  | strip hne hline => simpa using hfirst hne hline []
  | clip hne hline => exact hfirst hne hline _
  | keep hne hline => exact hfirst hne hline _
  | more hne hline => simpa only [List.append_assoc] using hfirst hne hline _

/-- Printable text is empty lines and text that begins with a line. -/
theorem exists_of_printable (h : ∀ c ∈ cs, isPrintable c = true) :
    ∃ breaks later, cs = breaks ++ later ∧ (∀ c ∈ breaks, KeptBreak c) ∧
      (later = [] ∨ ∃ chomp, Lines chomp later) := by
  induction cs with
  | nil => exact ⟨[], [], rfl, List.forall_mem_nil _, .inl rfl⟩
  | cons c cs ih =>
    obtain ⟨hc, hcs⟩ := List.forall_mem_cons.1 h
    obtain ⟨breaks, later, rfl, hbreaks, hlater⟩ := ih hcs
    by_cases hbreak : isBreak c = true
    · exact ⟨c :: breaks, later, rfl, List.forall_mem_cons.2 ⟨⟨hbreak, hc⟩, hbreaks⟩, hlater⟩
    have hline : InLine c := ⟨by simpa using hbreak, by rintro rfl; cases hc⟩
    have hne : [c] ≠ [] := List.cons_ne_nil _ _
    have hlines : ∀ d ∈ [c], InLine d := by simpa using hline
    refine ⟨[], c :: (breaks ++ later), rfl, List.forall_mem_nil _, .inr ?_⟩
    rcases hlater with rfl | ⟨chomp, hlater⟩
    · rw [List.append_nil]
      match breaks, hbreaks with
      | [], _ => exact ⟨_, .strip hne hlines⟩
      | [d], hbreaks => exact ⟨_, .clip hne hlines (hbreaks d (List.mem_cons_self ..))⟩
      | d :: e :: breaks, hbreaks =>
        obtain ⟨hd, hbreaks⟩ := List.forall_mem_cons.1 hbreaks
        exact ⟨_, .keep hne hlines hd hbreaks⟩
    · cases breaks with
      | nil => exact ⟨chomp, hlater.cons hline⟩
      | cons d more =>
        obtain ⟨hd, hmore⟩ := List.forall_mem_cons.1 hbreaks
        exact ⟨chomp, .more hne hlines hd hmore hlater⟩

end Lines

/-- The letter for what is done with the line ends at the end. -/
def Chomp.text : Chomp → List Char
  | .strip => ['-']
  | .clip => []
  | .keep => ['+']

/-- What is kept of the line ends behind the last line. -/
def Chomp.tail (chomp : Chomp) (ended : Option Char) (more : List Char) : List Char :=
  match chomp with
  | .strip => []
  | .clip => ended.toList
  | .keep => ended.toList ++ more

/-- The indentation is stated where the text begins with white space. -/
def statedIndent (cs : List Char) : List Char :=
  if cs.head?.any fun c => c = ' ' || isBreak c then ['2'] else []

theorem literalHeader_of_breaks {c : Char} {before more : List Char}
    (hmore : ∀ d ∈ c :: more, KeptBreak d) (h : before = [] ∨ more ≠ []) :
    literalHeader (before ++ c :: more) =
      '|' :: (statedIndent (before ++ c :: more) ++ Chomp.keep.text) := by
  have hbreaks : ∀ d ∈ (c :: more).reverse, isBreak d = true := fun d hd =>
    (hmore d (List.mem_reverse.1 hd)).1
  have hlength : (c :: more).reverse.length = more.length + 1 := by simp
  simp only [literalHeader, List.reverse_append]
  match hrev : (c :: more).reverse, hbreaks, hlength with
  | [d], hbreaks, hlength =>
    have hbefore : before = [] := h.resolve_right (by simp_all)
    simp only [hbefore, List.reverse_nil, List.append_nil, hbreaks d (List.mem_cons_self ..),
      if_true]
    rfl
  | d :: e :: rest, hbreaks, _ =>
    simp only [List.cons_append, hbreaks d (by simp), hbreaks e (by simp), if_true]
    rfl

theorem literalHeader_of_lines {chomp : Chomp} {cs : List Char} (h : Lines chomp cs)
    (before : List Char) :
    literalHeader (before ++ cs) = '|' :: (statedIndent (before ++ cs) ++ chomp.text) := by
  have hlast {line : List Char} (hne : line ≠ []) (hline : ∀ c ∈ line, InLine c) :
      ∃ c rest, line.reverse = c :: rest ∧ isBreak c = false := by
    obtain ⟨c, rest, h⟩ := List.exists_cons_of_ne_nil (mt List.reverse_eq_nil_iff.1 hne)
    exact ⟨c, rest, h, (hline c (List.mem_reverse.1 (h ▸ List.mem_cons_self ..))).1⟩
  induction h generalizing before with
  | strip hne hline =>
    obtain ⟨c, rest, hrev, hc⟩ := hlast hne hline
    simp only [literalHeader, List.reverse_append, hrev, List.cons_append]
    cases rest ++ before.reverse <;> simp only [hc, Bool.false_eq_true, if_false] <;> rfl
  | clip hne hline hc =>
    obtain ⟨d, rest, hrev, hd⟩ := hlast hne hline
    simp only [literalHeader, List.reverse_append, List.reverse_cons, List.reverse_nil, hrev,
      List.cons_append, List.nil_append, hc.1, hd, Bool.false_eq_true, if_true, if_false]
    rfl
  | keep hne hline hc hmore =>
    rw [← List.append_assoc]
    exact literalHeader_of_breaks (List.forall_mem_cons.2 ⟨hc, hmore⟩) (.inr (List.cons_ne_nil _ _))
  | @more chomp line more cs c hne hline hc hmore later ih =>
    simpa using ih (before ++ (line ++ c :: more))

/-- The text goes on with something that is no white space before column `indent`, or with a line
at this column. -/
structure LineStart (indent m : Nat) (rest : List Char) : Prop where
  le : m ≤ indent
  head : ∀ c ∈ rest.head?, InLine c ∧ (c = ' ' → m = indent)

section
variable {indent m index line : Nat} {rest : List Char}

theorem takeWhile_spaces (m : Nat) (rest : List Char) :
    ((spaces m ++ rest).takeWhile (· = ' ')).length =
      m + (rest.takeWhile (· = ' ')).length := by
  induction m with
  | zero => simp [spaces]
  | succ m ih => simp [spaces_succ, ih]; omega

/-- The indentation of the next line is passed over. -/
theorem scanBlockBreaks?_start (h : LineStart indent m rest) {fuel widest : Nat}
    {breaks : List Char} :
    scanBlockBreaks? (some indent) (fuel + 1) ⟨spaces m ++ rest, index, line, 0⟩ breaks widest =
      some (breaks, max widest m, ⟨rest, index + m, line, m⟩) := by
  have hle := h.le
  have hwidth : min ((spaces m ++ rest).takeWhile (· = ' ')).length (indent - 0) = m := by
    rw [takeWhile_spaces]
    cases rest with
    | nil => simp; omega
    | cons c cs =>
      by_cases hspace : c = ' '
      · have := (h.head c rfl).2 hspace
        omega
      · simp [hspace]; omega
  have hdrop : (spaces m ++ rest).drop m = rest := List.drop_left' (length_spaces m)
  rw [scanBlockBreaks?]
  simp only [hwidth, Source.advance, Nat.zero_add, hdrop]
  cases rest with
  | nil => rfl
  | cons c cs =>
    have hc := (h.head c rfl).1
    simp [hc.1, hc.2]

theorem scanBlockBreaks?_break {c : Char} (hc : KeptBreak c) {fuel widest : Nat}
    {breaks : List Char} :
    scanBlockBreaks? (some indent) (fuel + 1) ⟨c :: rest, index, line, 0⟩ breaks widest =
      scanBlockBreaks? (some indent) fuel ⟨rest, index + 1, line + 1, 0⟩ (breaks ++ [c])
        widest := by
  have hspace : c ≠ ' ' ∧ c ≠ '\t' := by
    constructor <;> rintro rfl <;> exact absurd hc.1 (by decide)
  rw [scanBlockBreaks?]
  simp [Source.advance, hspace, hc.1, hc.breakLength, hc.breakChar, Source.newLine]

/-- Empty lines are collected. -/
theorem scanBlockBreaks?_lines {more : List Char} (hmore : ∀ c ∈ more, KeptBreak c)
    (h : LineStart indent m rest) {fuel widest : Nat} (hfuel : more.length < fuel)
    {breaks : List Char} :
    scanBlockBreaks? (some indent) fuel ⟨more ++ (spaces m ++ rest), index, line, 0⟩ breaks widest =
      some (breaks ++ more, max widest m,
        ⟨rest, index + more.length + m, line + more.length, m⟩) := by
  induction more generalizing fuel index line breaks with
  | nil =>
    obtain ⟨fuel, rfl⟩ := Nat.exists_eq_add_one.2 hfuel
    simpa using scanBlockBreaks?_start h
  | cons c more ih =>
    obtain ⟨hc, hmore⟩ := List.forall_mem_cons.1 hmore
    obtain ⟨fuel, rfl⟩ := Nat.exists_eq_add_one.2 (Nat.zero_lt_of_lt hfuel)
    rw [List.cons_append, scanBlockBreaks?_break hc, ih hmore (Nat.lt_of_succ_lt_succ hfuel)]
    simp [Nat.add_assoc, Nat.add_comm 1]

/-- Where the indentation is not stated, it is that of the first line. -/
theorem scanBlockBreaks?_unstated {c : Char} (hc : InLine c) (hspace : c ≠ ' ') (n : Nat)
    {fuel : Nat} :
    scanBlockBreaks? none (fuel + 1) ⟨spaces n ++ c :: rest, index, line, 0⟩ [] 0 =
      some ([], n, ⟨c :: rest, index + n, line, n⟩) := by
  have hwidth : ((spaces n ++ c :: rest).takeWhile (· = ' ')).length = n := by
    simp [takeWhile_spaces, hspace]
  have hdrop : (spaces n ++ c :: rest).drop n = c :: rest := List.drop_left' (length_spaces n)
  rw [scanBlockBreaks?]
  simp only [hwidth, Source.advance, Nat.zero_add, hdrop]
  simp [hc.1, hc.2]

theorem literalLines_line {line : List Char} (hline : ∀ c ∈ line, InLine c) (cs : List Char) :
    literalLines indent false (line ++ cs) = line ++ literalLines indent false cs := by
  induction line with
  | nil => rfl
  | cons c line ih =>
    obtain ⟨hc, hline⟩ := List.forall_mem_cons.1 hline
    rw [List.cons_append, literalLines, ih hline]
    simp [hc.1]

theorem literalLines_breaks {c : Char} {more : List Char} (hmore : ∀ d ∈ c :: more, KeptBreak d)
    (lineStart : Bool) (cs : List Char) :
    literalLines indent lineStart (c :: more ++ cs) = c :: more ++ literalLines indent true cs := by
  induction more generalizing c lineStart with
  | nil =>
    rw [List.cons_append, literalLines]
    simp [(hmore c (List.mem_cons_self ..)).1]
  | cons d more ih =>
    have hc := hmore c (List.mem_cons_self ..)
    have hlater : ∀ e ∈ d :: more, KeptBreak e := fun e he => hmore e (List.mem_cons_of_mem _ he)
    rw [List.cons_append, literalLines, ih hlater]
    simp [hc.1]

theorem Lines.literalLines_start {chomp : Chomp} {cs : List Char} (h : Lines chomp cs) :
    literalLines indent true cs = spaces indent ++ literalLines indent false cs := by
  obtain ⟨c, rest, rfl, hc⟩ := h.head
  rw [literalLines, literalLines]
  simp [hc.1, spaces]

/-- A line that the writer has indented. -/
theorem Lines.lineStart {chomp : Chomp} {cs : List Char} (h : Lines chomp cs) (after : List Char) :
    LineStart indent indent (literalLines indent false cs ++ after) := by
  obtain ⟨c, rest, rfl, hc⟩ := h.head
  refine ⟨Nat.le_refl _, fun d hd => ⟨?_, fun _ => rfl⟩⟩
  rw [literalLines] at hd
  simp [hc.1] at hd
  exact hd ▸ hc

theorem scanBlockLines?_stop (hm : m < indent) (fuel : Nat) (text : List Char)
    (ended : Option Char) (more : List Char) (blank : Bool) :
    scanBlockLines? true indent fuel ⟨rest, index, line, m⟩ text ended more blank =
      some (text, ended, more, ⟨rest, index, line, m⟩) := by
  cases fuel with
  | zero => rfl
  | succ fuel =>
    rw [scanBlockLines?]
    simp [Nat.ne_of_lt hm]

/-- One line, the line ends behind it, and the indentation of the next line. -/
theorem scanBlockLines?_line {cs : List Char} (hne : cs ≠ []) (hcs : ∀ c ∈ cs, InLine c) {c : Char}
    {more : List Char} (hmore : ∀ d ∈ c :: more, KeptBreak d) (h : LineStart indent m rest)
    (fuel : Nat) (text : List Char) (ended : Option Char) (before : List Char) (blank : Bool) :
    scanBlockLines? true indent (fuel + 1)
        ⟨cs ++ c :: (more ++ (spaces m ++ rest)), index, line, indent⟩ text ended before blank =
      scanBlockLines? true indent fuel
        ⟨rest, index + cs.length + 1 + more.length + m, line + 1 + more.length, m⟩
        (text ++ (ended.toList ++ before) ++ cs) (some c) more (cs.head?.any isSpaceOrTab) := by
  have hc := hmore c (List.mem_cons_self ..)
  have htake : (cs ++ c :: (more ++ (spaces m ++ rest))).takeWhile (fun c => !isBreak c) = cs := by
    rw [List.takeWhile_append_of_pos fun d hd => by simp [(hcs d hd).1]]
    simp [hc.1]
  have hhead : (cs ++ c :: (more ++ (spaces m ++ rest))).head? = cs.head? := by
    obtain ⟨d, cs, rfl⟩ := List.exists_cons_of_ne_nil hne
    rfl
  have hbreaks : ∀ fuel, more.length < fuel → scanBlockBreaks? (some indent) fuel
      ⟨more ++ (spaces m ++ rest), index + cs.length + 1, line + 1, 0⟩ [] 0 = _ := fun fuel hfuel =>
    scanBlockBreaks?_lines (fun d hd => hmore d (List.mem_cons_of_mem _ hd)) h hfuel
  rw [scanBlockLines?]
  simp only [Source.advance, htake, List.drop_left, hhead, ne_eq, not_true_eq_false, decide_false,
    Bool.false_or, hc.breakChar, hc.breakLength, Source.newLine, List.drop_succ_cons,
    List.drop_zero]
  rw [hbreaks _ (by rw [List.length_append]; omega)]
  simp

end

/-- The lines that begin here read as the text `cs`, to where the block ends. -/
def ReadsLines (chomp : Chomp) (indent : Nat) (lines cs : List Char) (m : Nat) (rest : List Char) :
    Prop :=
  ∀ index line fuel text ended before blank, cs.length < fuel →
    ∃ s : Source, s.rest = rest ∧ s.column = m ∧
      (scanBlockLines? true indent fuel ⟨lines, index, line, indent⟩ text ended before blank).map
          (fun (text, ended, more, s) => (text ++ chomp.tail ended more, s)) =
        some (text ++ (ended.toList ++ before) ++ cs, s)

namespace ReadsLines

variable {chomp : Chomp} {indent m : Nat} {rest line more : List Char} {c : Char}

theorem last (hm : m < indent) (hrest : LineStart indent m rest) (hne : line ≠ [])
    (hline : ∀ c ∈ line, InLine c) (hmore : ∀ d ∈ c :: more, KeptBreak d) :
    ReadsLines chomp indent (line ++ c :: (more ++ (spaces m ++ rest)))
      (line ++ chomp.tail (some c) more) m rest := by
  intro index l fuel text ended before blank hfuel
  obtain ⟨fuel, rfl⟩ := Nat.exists_eq_add_one.2 (Nat.zero_lt_of_lt hfuel)
  rw [scanBlockLines?_line hne hline hmore hrest, scanBlockLines?_stop hm]
  exact ⟨_, rfl, rfl, congrArg (fun text => some (text, _)) (List.append_assoc ..)⟩

theorem more_append {lines cs : List Char} (h : ReadsLines chomp indent lines cs m rest)
    (hstart : LineStart indent indent lines) (hne : line ≠ []) (hline : ∀ c ∈ line, InLine c)
    (hmore : ∀ d ∈ c :: more, KeptBreak d) :
    ReadsLines chomp indent (line ++ c :: (more ++ (spaces indent ++ lines)))
      (line ++ c :: more ++ cs) m rest := by
  intro index l fuel text ended before blank hfuel
  obtain ⟨fuel, rfl⟩ := Nat.exists_eq_add_one.2 (Nat.zero_lt_of_lt hfuel)
  simp only [List.length_append, List.length_cons] at hfuel
  rw [scanBlockLines?_line hne hline hmore hstart]
  simpa using h _ _ fuel (text ++ (ended.toList ++ before) ++ line) (some c) more _ (by omega)

/-- The lines of a text are read to the end of the block. -/
theorem of_lines {cs : List Char} (h : Lines chomp cs) (hm : m < indent)
    (hrest : LineStart indent m rest) :
    ReadsLines chomp indent (literalLines indent false cs ++ (spaces m ++ rest)) cs m rest := by
  induction h with
  | @strip line hne hline =>
    have hfeed : ∀ d ∈ ['\n'], KeptBreak d := by simp [keptBreak_iff]
    have hwritten : literalLines indent false line = line ++ ['\n'] := by
      simpa [literalLines] using literalLines_line hline []
    have hread : ReadsLines .strip indent _ _ m rest := last hm hrest hne hline hfeed
    rw [Chomp.tail, List.append_nil] at hread
    rwa [hwritten, List.append_assoc]
  | @clip line c hne hline hc =>
    have hbreaks : ∀ d ∈ [c], KeptBreak d := by simpa using hc
    have hwritten : literalLines indent false (line ++ [c]) = line ++ [c] := by
      rw [literalLines_line hline]
      exact congrArg (line ++ ·) (literalLines_breaks hbreaks false [])
    have hread : ReadsLines .clip indent _ _ m rest := last hm hrest hne hline hbreaks
    rwa [hwritten, List.append_assoc]
  | @keep line more c d hne hline hc hmore =>
    have hbreaks : ∀ e ∈ c :: d :: more, KeptBreak e := List.forall_mem_cons.2 ⟨hc, hmore⟩
    have hwritten :
        literalLines indent false (line ++ c :: d :: more) = line ++ c :: d :: more := by
      rw [literalLines_line hline]
      simpa [literalLines] using literalLines_breaks hbreaks false []
    have hread : ReadsLines .keep indent _ _ m rest := last hm hrest hne hline hbreaks
    rwa [hwritten, List.append_assoc]
  | @more chomp line more cs c hne hline hc hmore later ih =>
    have hbreaks : ∀ e ∈ c :: more, KeptBreak e := List.forall_mem_cons.2 ⟨hc, hmore⟩
    have hwritten : literalLines indent false (line ++ c :: more ++ cs) =
        line ++ (c :: more ++ (spaces indent ++ literalLines indent false cs)) := by
      rw [List.append_assoc, literalLines_line hline, literalLines_breaks hbreaks,
        later.literalLines_start]
    have hread := ih.more_append (later.lineStart _) hne hline hbreaks
    rw [hwritten]
    simpa only [List.append_assoc, List.cons_append] using hread

end ReadsLines

/-- Behind the header, the first lines of a block decide on its indentation if none is stated. -/
theorem scanBlock?_header {header rest : List Char} {chomp : Chomp} {increment : Option Nat}
    (h : blockHeader? (header ++ '\n' :: rest) = some (⟨chomp, increment⟩, header.length))
    (n index line column : Nat) :
    ∃ index', scanBlock? true (some n) ⟨header ++ '\n' :: rest, index, line, column⟩ =
      (scanBlockBreaks? (increment.map (· + n)) (rest.length + 1) ⟨rest, index', line + 1, 0⟩ []
          0).bind fun (more, widest, s) =>
        ((scanBlockLines? true ((increment.map (· + n)).getD (max widest (n + 1)))
            (s.rest.length + 1) s [] none more false).map fun (text, ended, more, s) =>
          (text ++ chomp.tail ended more, s)).map fun (text, s) => ⟨text, s, false⟩ := by
  have hskip : ((Source.advance ⟨header ++ '\n' :: rest, index, line, column⟩
      header.length).skipWhile isSpaceOrTab).skipComment =
      ⟨'\n' :: rest, index + header.length, line, column + header.length⟩ := by
    simp only [Source.advance, Source.skipWhile, List.drop_left]
    rfl
  have hbreak : isBreak '\n' = true := rfl
  have hnewLine (c : Nat) : Source.newLine ⟨'\n' :: rest, index + header.length, line, c⟩
      (Source.breakLength ('\n' :: rest)) = ⟨rest, index + header.length + 1, line + 1, 0⟩ := rfl
  refine ⟨index + header.length + 1, ?_⟩
  rw [scanBlock?, h]
  simp only [Option.bind_eq_bind, Option.bind_some, hskip, hbreak, hnewLine, if_true,
    Option.getD_some, Option.map_eq_bind, Function.comp_def, Option.bind_assoc]
  rfl

/-- Behind a bar in a collection at column `n`, the text is read as the block `cs`. What follows it
begins at column `m`. -/
def ReadsBlock (n : Nat) (text cs : List Char) (m : Nat) (rest : List Char) : Prop :=
  ∀ index line column, ∃ s : Source, s.rest = rest ∧ s.column = m ∧
    scanBlock? true (some n) ⟨text, index, line, column⟩ = some ⟨cs, s, false⟩

theorem length_le_literalLines (indent : Nat) (lineStart : Bool) (cs : List Char) :
    cs.length ≤ (literalLines indent lineStart cs).length := by
  induction cs generalizing lineStart with
  | nil => exact Nat.zero_le _
  | cons c cs ih =>
    have htrue := ih true
    have hfalse := ih false
    rw [literalLines]
    split
    · simpa using htrue
    · split <;> simp <;> omega

namespace ReadsBlock

variable {chomp : Chomp} {cs rest breaks : List Char} {n m : Nat}

/-- A block whose text begins with white space has its indentation stated. -/
theorem stated {lines : List Char} (hbreaks : ∀ c ∈ breaks, KeptBreak c) {k : Nat}
    (hlines : LineStart (n + 2) k lines)
    (hread : ∀ index line fuel, lines.length < fuel → ∃ s : Source, s.rest = rest ∧ s.column = m ∧
      (scanBlockLines? true (n + 2) fuel ⟨lines, index, line, k⟩ [] none breaks false).map
          (fun (text, ended, more, s) => (text ++ chomp.tail ended more, s)) = some (cs, s)) :
    ReadsBlock n ('2' :: chomp.text ++ '\n' :: (breaks ++ (spaces k ++ lines))) cs m rest := by
  intro index line column
  have hheader : blockHeader? ('2' :: chomp.text ++ '\n' :: (breaks ++ (spaces k ++ lines))) =
      some (⟨chomp, some 2⟩, ('2' :: chomp.text).length) := by
    cases chomp <;> rfl
  obtain ⟨index', hscan⟩ := scanBlock?_header hheader n index line column
  have hfuel : breaks.length < (breaks ++ (spaces k ++ lines)).length + 1 := by
    rw [List.length_append]
    omega
  obtain ⟨s, hs, hcolumn, hread⟩ :=
    hread (index' + breaks.length + k) (line + 1 + breaks.length) (lines.length + 1) (by omega)
  refine ⟨s, hs, hcolumn, ?_⟩
  rw [hscan, Option.map_some, Nat.add_comm 2, scanBlockBreaks?_lines hbreaks hlines hfuel,
    Option.bind_some]
  simp only [List.nil_append, Option.getD_some, hread, Option.map_some]

/-- The indentation of other blocks is that of the first line. -/
theorem unstated {c : Char} {lines : List Char} (hc : InLine c) (hspace : c ≠ ' ')
    (hread : ReadsLines chomp (n + 2) (c :: lines) cs m rest)
    (hfuel : cs.length < (c :: lines).length + 1) :
    ReadsBlock n (chomp.text ++ '\n' :: (spaces (n + 2) ++ c :: lines)) cs m rest := by
  intro index line column
  have hheader : blockHeader? (chomp.text ++ '\n' :: (spaces (n + 2) ++ c :: lines)) =
      some (⟨chomp, none⟩, chomp.text.length) := by
    cases chomp <;> rfl
  obtain ⟨index', hscan⟩ := scanBlock?_header hheader n index line column
  obtain ⟨s, hs, hcolumn, hread⟩ :=
    hread (index' + (n + 2)) (line + 1) _ [] none [] false hfuel
  have hindent : max (n + 2) (n + 1) = n + 2 := Nat.max_eq_left (Nat.le_succ _)
  refine ⟨s, hs, hcolumn, ?_⟩
  rw [hscan, Option.map_none, scanBlockBreaks?_unstated hc hspace, Option.bind_some]
  simp only [Option.getD_none, hindent, hread, Option.map_some]
  rfl

/-- Line ends alone are all kept. -/
theorem of_breaks {c : Char} {more : List Char} (hbreaks : ∀ d ∈ c :: more, KeptBreak d)
    (hm : m < n + 2) (hrest : LineStart (n + 2) m rest) :
    ∃ header, literalHeader (c :: more) = '|' :: header ∧
      ReadsBlock n (header ++ '\n' :: (literalLines (n + 2) true (c :: more) ++
        (spaces m ++ rest))) (c :: more) m rest := by
  have hstated : statedIndent (c :: more) = ['2'] := by
    simp [statedIndent, (hbreaks c (List.mem_cons_self ..)).1]
  have hheader := literalHeader_of_breaks hbreaks (.inl rfl)
  have hwritten : literalLines (n + 2) true (c :: more) = c :: more := by
    simpa [literalLines] using literalLines_breaks hbreaks true []
  rw [List.nil_append, hstated] at hheader
  refine ⟨_, hheader, ?_⟩
  rw [hwritten]
  refine stated hbreaks hrest fun index line fuel _ => ?_
  rw [scanBlockLines?_stop hm]
  exact ⟨_, rfl, rfl, rfl⟩

/-- Text that begins with a line, with empty lines before it. -/
theorem of_lines (hbreaks : ∀ c ∈ breaks, KeptBreak c) (h : Lines chomp cs) (hm : m < n + 2)
    (hrest : LineStart (n + 2) m rest) :
    ∃ header, literalHeader (breaks ++ cs) = '|' :: header ∧
      ReadsBlock n (header ++ '\n' :: (literalLines (n + 2) true (breaks ++ cs) ++
        (spaces m ++ rest))) (breaks ++ cs) m rest := by
  have hheader := literalHeader_of_lines h breaks
  have hread := ReadsLines.of_lines h hm hrest
  have hfuel : cs.length < (literalLines (n + 2) false cs ++ (spaces m ++ rest)).length + 1 := by
    have := length_le_literalLines (n + 2) false cs
    simp only [List.length_append]
    omega
  have hwritten : literalLines (n + 2) true (breaks ++ cs) =
      breaks ++ (spaces (n + 2) ++ literalLines (n + 2) false cs) := by
    cases breaks with
    | nil => exact h.literalLines_start
    | cons c more => rw [literalLines_breaks hbreaks, h.literalLines_start]
  refine ⟨_, hheader, ?_⟩
  rw [hwritten, List.append_assoc breaks, List.append_assoc (spaces _)]
  by_cases hstated : statedIndent (breaks ++ cs) = ['2']
  · rw [hstated]
    refine stated hbreaks (h.lineStart _) fun index line fuel hfuel => ?_
    simpa using hread index line fuel [] none breaks false (by omega)
  · -- The text begins with a line, and the line not with a space.
    obtain ⟨c, line, rfl, hc⟩ := h.head
    cases breaks with
    | cons d more =>
      exact absurd (by simp [statedIndent, (hbreaks d (List.mem_cons_self ..)).1]) hstated
    | nil =>
      have hspace : c ≠ ' ' := by
        rintro rfl
        exact hstated rfl
      have hnone : statedIndent ([] ++ c :: line) = [] := by simp [statedIndent, hspace, hc.1]
      have hfirst : literalLines (n + 2) false (c :: line) =
          c :: literalLines (n + 2) false line := by
        rw [literalLines]
        simp [hc.1]
      rw [hfirst] at hread hfuel ⊢
      rw [hnone]
      exact unstated hc hspace hread hfuel

/-- A literal block reads back as its text. -/
theorem literal (hprintable : ∀ c ∈ cs, isPrintable c = true) (hne : cs ≠ []) (hm : m < n + 2)
    (hrest : LineStart (n + 2) m rest) :
    ∃ header, literalHeader cs = '|' :: header ∧
      ReadsBlock n (header ++ '\n' :: (literalLines (n + 2) true cs ++ (spaces m ++ rest))) cs m
        rest := by
  obtain ⟨breaks, later, rfl, hbreaks, hlater⟩ := Lines.exists_of_printable hprintable
  rcases hlater with rfl | ⟨chomp, hlines⟩
  · rw [List.append_nil] at hne ⊢
    obtain ⟨c, more, rfl⟩ := List.exists_cons_of_ne_nil hne
    exact of_breaks hbreaks hm hrest
  · exact of_lines hbreaks hlines hm hrest

end ReadsBlock

end GuidedDataflow.Yaml
