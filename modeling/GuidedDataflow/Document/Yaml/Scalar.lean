import GuidedDataflow.Document.Json.Reader
import GuidedDataflow.Document.Yaml.Source

/-!
Scalars of YAML text: plain ones, those in single or double quotes, and block scalars. Inside
a scalar a line end reads as a blank, and further empty lines as line feeds; only literal
blocks keep their line ends.
-/

namespace GuidedDataflow.Yaml

/-- The white space between two words of a scalar. -/
structure Gap where
  /-- Blanks before any line end. -/
  blanks : List Char
  first : Option Char
  /-- The line ends after the first, in order. -/
  more : List Char
deriving Inhabited, Repr

namespace Gap

def empty : Gap := ⟨[], none, []⟩

/-- A gap that begins with an escaped line end, which reads as nothing. -/
def escaped (more : List Char) : Gap := ⟨[], none, more⟩

/-- Whether the gap spans a line end. -/
def broken (g : Gap) : Bool := g.first.isSome

/-- What the gap reads as. -/
def fold (g : Gap) : List Char :=
  match g.first with
  | none => g.blanks ++ g.more
  | some '\n' => if g.more.isEmpty then [' '] else g.more
  | some c => c :: g.more

/-- Reads the white space here. Once a line has ended, tabs before column `indent` are
refused. -/
def scan? (indent : Nat) : Nat → Source → Gap → Option (Gap × Source)
  | 0, s, g => some (g, s)
  | fuel + 1, s, g =>
    match s.rest with
    | [] => some (g, s)
    | c :: _ =>
      if isSpaceOrTab c then
        if g.broken then
          if c = '\t' && s.column < indent then none
          else scan? indent fuel (s.advance 1) g
        else scan? indent fuel (s.advance 1) { g with blanks := g.blanks ++ [c] }
      else if isBreak c then
        let ended := Source.breakChar s.rest
        let next := s.newLine (Source.breakLength s.rest)
        if g.broken then scan? indent fuel next { g with more := g.more ++ [ended] }
        else scan? indent fuel next ⟨[], some ended, []⟩
      else some (g, s)

/-- Reads the white space after an escaped line end: blanks are dropped, line ends kept. -/
def scanEscaped : Nat → Source → List Char → Gap × Source
  | 0, s, more => (escaped more, s)
  | fuel + 1, s, more =>
    match s.rest with
    | [] => (escaped more, s)
    | c :: _ =>
      if isSpaceOrTab c then scanEscaped fuel (s.advance 1) more
      else if isBreak c then
        scanEscaped fuel (s.newLine (Source.breakLength s.rest))
          (more ++ [Source.breakChar s.rest])
      else (escaped more, s)

end Gap

/-- A scalar as read: its text, where reading goes on, and whether it ended behind a line
end. -/
structure ScannedScalar where
  text : List Char
  source : Source
  broken : Bool

/-- The indicators that end a plain scalar inside brackets or braces. -/
def isFlowIndicator (c : Char) : Bool :=
  c = ',' || c = '[' || c = ']' || c = '{' || c = '}'

/-- The word of a plain scalar that begins here. Inside brackets and braces a colon must not
be followed directly by an indicator. -/
def plainWord? (inFlow : Bool) : List Char → Option (List Char)
  | [] => some []
  | c :: rest =>
    if isBlankOrBreak c then some []
    else if c = ':' then
      if inFlow && rest.head?.any (fun d => isFlowIndicator d || d = '?') then none
      else if startsBlank rest then some []
      else (plainWord? inFlow rest).map (c :: ·)
    else if inFlow && isFlowIndicator c then some []
    else (plainWord? inFlow rest).map (c :: ·)

/-- Reads a plain scalar whose lines after the first are indented to column `indent`. -/
def scanPlain? (inFlow : Bool) (indent : Nat) :
    Nat → Source → List Char → Gap → Option ScannedScalar
  | 0, s, text, gap => some ⟨text, s, gap.broken⟩
  | fuel + 1, s, text, gap =>
    if s.atDocumentMarker || s.rest.head? = some '#' then some ⟨text, s, gap.broken⟩
    else do
      let word ← plainWord? inFlow s.rest
      let s := s.advance word.length
      let (text, gap) := if word.isEmpty then (text, gap) else (text ++ gap.fold ++ word, .empty)
      match s.rest with
      | [] => return ⟨text, s, gap.broken⟩
      | c :: _ =>
        if isBlankOrBreak c then
          let (gap, s) ← gap.scan? indent (s.rest.length + 1) s
          if !inFlow && s.column < indent then return ⟨text, s, gap.broken⟩
          else scanPlain? inFlow indent fuel s text gap
        else return ⟨text, s, gap.broken⟩

/-- The characters of a double-quoted scalar that a backslash and one letter stand for. -/
def simpleEscape? : Char → Option Char
  | '0' => some '\x00'
  | 'a' => some '\x07'
  | 'b' => some '\x08'
  | 't' => some '\t'
  | '\t' => some '\t'
  | 'n' => some '\n'
  | 'v' => some '\x0b'
  | 'f' => some '\x0c'
  | 'r' => some '\r'
  | 'e' => some '\x1b'
  | ' ' => some ' '
  | '"' => some '"'
  | '/' => some '/'
  | '\\' => some '\\'
  | 'N' => some '\u0085'
  | '_' => some '\u00a0'
  | 'L' => some '\u2028'
  | 'P' => some '\u2029'
  | _ => none

/-- How many hexadecimal digits follow a backslash and this letter. -/
def escapeDigits : Char → Nat
  | 'x' => 2
  | 'u' => 4
  | 'U' => 8
  | _ => 0

/-- The character with the code that the digits write. Surrogates have none. -/
def hexChar? (digits : List Char) : Option Char := do
  let values ← digits.mapM Json.hexValue?
  let code := values.foldl (fun n d => 16 * n + d) 0
  if code.isValidChar then some (Char.ofNat code) else none

/-- An escape behind its backslash: the character and the length of what was read. -/
def escape? : List Char → Option (Char × Nat)
  | [] => none
  | c :: rest =>
    match escapeDigits c with
    | 0 => (simpleEscape? c).map (·, 1)
    | n => if rest.length < n then none else (hexChar? (rest.take n)).map (·, n + 1)

/-- The white space inside a quoted scalar, which ends where its text goes on. -/
def scanQuotedGap? (s : Source) : Option (List Char × Source) :=
  (Gap.empty.scan? 0 (s.rest.length + 1) s).map fun (gap, s) => (gap.fold, s)

/-- Reads a quoted scalar behind its opening quote. A document marker at the start of a line
may not stand inside. -/
def scanQuoted? (double : Bool) : Nat → Source → List Char → Option ScannedScalar
  | 0, _, _ => none
  | fuel + 1, s, text =>
    if s.atDocumentMarker then none
    else
      match s.rest with
      | [] => none
      | '\'' :: rest =>
        if double then scanQuoted? double fuel (s.advance 1) ('\'' :: text)
        else
          match rest with
          | '\'' :: _ => scanQuoted? double fuel (s.advance 2) ('\'' :: text)
          | _ => some ⟨text.reverse, s.advance 1, false⟩
      | '"' :: _ =>
        if double then some ⟨text.reverse, s.advance 1, false⟩
        else scanQuoted? double fuel (s.advance 1) ('"' :: text)
      | '\\' :: rest =>
        if double then
          if rest.head?.any isBreak then
            let ended := (s.advance 1).newLine (Source.breakLength rest)
            let (gap, s) := Gap.scanEscaped (rest.length + 1) ended []
            scanQuoted? double fuel s (gap.fold.reverse ++ text)
          else
            match escape? rest with
            | some (c, n) => scanQuoted? double fuel (s.advance (n + 1)) (c :: text)
            | none => none
        else scanQuoted? double fuel (s.advance 1) ('\\' :: text)
      | c :: _ =>
        if isBlankOrBreak c then
          match scanQuotedGap? s with
          | some (gap, s) => scanQuoted? double fuel s (gap.reverse ++ text)
          | none => none
        else scanQuoted? double fuel (s.advance 1) (c :: text)

/-- What a block scalar does with the line ends at its end. -/
inductive Chomp where
  | strip
  | clip
  | keep
deriving DecidableEq, Repr

structure BlockHeader where
  chomp : Chomp
  /-- The stated indentation, if there is one. -/
  increment : Option Nat

def chompOf? : Char → Option Chomp
  | '+' => some .keep
  | '-' => some .strip
  | _ => none

/-- An indentation of zero cannot be stated. -/
def incrementOf? (c : Char) : Option Nat := if c.isDigit && c ≠ '0' then some (digitValue c) else none

/-- The header behind the indicator: chomping and indentation in either order. -/
def blockHeader? (cs : List Char) : Option (BlockHeader × Nat) :=
  match cs with
  | [] => some (⟨.clip, none⟩, 0)
  | c :: rest =>
    match chompOf? c with
    | some chomp =>
      match rest with
      | d :: _ =>
        if d.isDigit then (incrementOf? d).map fun n => (⟨chomp, some n⟩, 2)
        else some (⟨chomp, none⟩, 1)
      | [] => some (⟨chomp, none⟩, 1)
    | none =>
      if c.isDigit then
        (incrementOf? c).map fun n =>
          match rest.head?.bind chompOf? with
          | some chomp => (⟨chomp, some n⟩, 2)
          | none => (⟨.clip, some n⟩, 1)
      else some (⟨.clip, none⟩, 0)

/-- Reads the indentation and the empty lines before a block's next line. With the indentation
not known yet, `widest` collects the deepest column seen. -/
def scanBlockBreaks? (indent : Option Nat) :
    Nat → Source → List Char → Nat → Option (List Char × Nat × Source)
  | 0, s, breaks, widest => some (breaks, widest, s)
  | fuel + 1, s, breaks, widest =>
    let spaces := (s.rest.takeWhile (· = ' ')).length
    let width := match indent with
      | some n => min spaces (n - s.column)
      | none => spaces
    let s := s.advance width
    let widest := max widest s.column
    match s.rest with
    | [] => some (breaks, widest, s)
    | c :: _ =>
      if c = '\t' && indent.all (s.column < ·) then none
      else if isBreak c then
        scanBlockBreaks? indent fuel (s.newLine (Source.breakLength s.rest))
          (breaks ++ [Source.breakChar s.rest]) widest
      else some (breaks, widest, s)

/-- Reads the lines of a block. `ended` is the line end of the line before, if any, `more` the
empty lines after it, and `blankBefore` says whether that line began with a blank. -/
def scanBlockLines? (literal : Bool) (indent : Nat) :
    Nat → Source → List Char → Option Char → List Char → Bool →
      Option (List Char × Option Char × List Char × Source)
  | 0, s, text, ended, more, _ => some (text, ended, more, s)
  | fuel + 1, s, text, ended, more, blankBefore =>
    if s.column ≠ indent || s.rest.isEmpty then some (text, ended, more, s)
    else
      let blankHere := s.rest.head?.any isSpaceOrTab
      let joined :=
        if !literal && ended = some '\n' && !blankBefore && !blankHere then
          if more.isEmpty then [' '] else more
        else ended.toList ++ more
      let line := s.rest.takeWhile fun c => !isBreak c
      let s := s.advance line.length
      let (ended, s) :=
        match s.rest with
        | [] => (none, s)
        | _ => (some (Source.breakChar s.rest), s.newLine (Source.breakLength s.rest))
      match scanBlockBreaks? (some indent) (s.rest.length + 1) s [] 0 with
      | none => none
      | some (more, _, s) =>
        scanBlockLines? literal indent fuel s (text ++ joined ++ line) ended more blankHere

/-- Reads a block scalar behind its indicator. `parent` is the column of the collection that
it stands in, if any. -/
def scanBlock? (literal : Bool) (parent : Option Nat) (s : Source) : Option ScannedScalar := do
  let (header, length) ← blockHeader? s.rest
  let s := ((s.advance length).skipWhile isSpaceOrTab).skipComment
  let s ←
    match s.rest with
    | [] => some s
    | c :: _ => if isBreak c then some (s.newLine (Source.breakLength s.rest)) else none
  let stated := header.increment.map fun n => n + parent.getD 0
  let (more, widest, s) ← scanBlockBreaks? stated (s.rest.length + 1) s [] 0
  let least := match parent with
    | some column => column + 1
    | none => 1
  let indent := stated.getD (max widest least)
  let (text, ended, more, s) ← scanBlockLines? literal indent (s.rest.length + 1) s [] none more false
  let tail :=
    match header.chomp with
    | .strip => []
    | .clip => ended.toList
    | .keep => ended.toList ++ more
  return ⟨text ++ tail, s, false⟩

end GuidedDataflow.Yaml
