import GuidedDataflow.Document.Yaml.Scalar

/-!
Tokens of YAML text. Indentation turns into explicit starts and ends of block collections. A
key is known as such only at the colon behind it, so where a key may begin is remembered, and
the tokens that open it are put there once the colon comes. Such a key stands on one line and
is at most 1024 characters long.

Anchors, aliases, tags and directives are not part of the language read here.
-/

namespace GuidedDataflow.Yaml

inductive Token where
  | documentStart
  | documentEnd
  | blockSequenceStart
  | blockMappingStart
  | blockEnd
  | flowSequenceStart
  | flowSequenceEnd
  | flowMappingStart
  | flowMappingEnd
  | blockEntry
  | flowEntry
  | key
  | value
  | scalar (plain : Bool) (text : String)
deriving DecidableEq, Inhabited, Repr

/-- Where a key may have begun. -/
structure KeyMark where
  /-- The number of tokens before it. -/
  position : Nat
  /-- Nothing else can stand here, so the colon has to come. -/
  required : Bool
  index : Nat
  line : Nat
  column : Nat
deriving Inhabited, Repr

structure Lexer where
  source : Source
  /-- The columns of the open block collections, innermost first. -/
  indents : List Nat
  /-- The possible key of every open flow collection, innermost first. -/
  outerKeys : List (Option KeyMark)
  possibleKey : Option KeyMark
  keyAllowed : Bool
  tokens : Array Token
deriving Inhabited

namespace Lexer

def ofChars (cs : List Char) : Lexer := ⟨.ofChars cs, [], [], none, true, #[]⟩

def inFlow (l : Lexer) : Bool := !l.outerKeys.isEmpty

def push (l : Lexer) (t : Token) : Lexer := { l with tokens := l.tokens.push t }

/-- The first column that belongs to the innermost block collection's entries. -/
def contentColumn (l : Lexer) : Nat :=
  match l.indents with
  | [] => 0
  | column :: _ => column + 1

/-- Opens a block collection at a column further in than the innermost one, with its token
put at `position`. -/
def openBlock (l : Lexer) (column position : Nat) (t : Token) : Lexer :=
  if l.inFlow || column < l.contentColumn then l
  else
    { l with
      indents := column :: l.indents
      tokens := l.tokens.insertIdxIfInBounds position t }

/-- Closes the block collections that are further in than the column. -/
def closeBlocks (l : Lexer) (column : Option Nat) : Lexer :=
  if l.inFlow then l
  else
    let inner := l.indents.takeWhile fun indent => column.all (· < indent)
    { l with
      indents := l.indents.drop inner.length
      tokens := l.tokens ++ Array.replicate inner.length .blockEnd }

/-- A key mark that is out of date: on an earlier line, or too far back. -/
def isStale (l : Lexer) (k : KeyMark) : Bool :=
  k.line < l.source.line || k.index + 1024 < l.source.index

/-- Gives up a possible key, which fails where the key was required. -/
def dropKey? (l : Lexer) : Option Lexer :=
  if l.possibleKey.any (·.required) then none else some { l with possibleKey := none }

/-- Gives up all key marks that are out of date. -/
def dropStale? (l : Lexer) : Option Lexer :=
  let stale (k : Option KeyMark) : Bool := k.any l.isStale
  let refresh (k : Option KeyMark) : Option KeyMark := k.filter fun m => !l.isStale m
  if (l.possibleKey :: l.outerKeys).any fun k => stale k && k.any (·.required) then none
  else
    some { l with
      possibleKey := refresh l.possibleKey
      outerKeys := l.outerKeys.map refresh }

/-- Remembers that a key may begin here. It is required where a block mapping's entries
begin. -/
def markKey? (l : Lexer) : Option Lexer :=
  if !l.keyAllowed then some l
  else do
    let required := !l.inFlow && l.indents.head? = some l.source.column
    let l ← l.dropKey?
    return { l with
      possibleKey :=
        some ⟨l.tokens.size, required, l.source.index, l.source.line, l.source.column⟩ }

/-- Past white space and comments to the next token. A new line outside brackets and braces
may begin with a key; until one may, tabs count as white space. -/
def skipToToken : Nat → Lexer → Lexer
  | 0, l => l
  | fuel + 1, l =>
    let blank (c : Char) : Bool := c = ' ' || (c = '\t' && (l.inFlow || !l.keyAllowed))
    let s := (l.source.skipOrderMark.skipWhile blank).skipComment
    match s.rest with
    | [] => { l with source := s }
    | c :: _ =>
      if isBreak c then
        skipToToken fuel
          { l with
            source := s.newLine (Source.breakLength s.rest)
            keyAllowed := l.keyAllowed || !l.inFlow }
      else { l with source := s }

/-- A document marker ends all block collections. -/
def documentMarker? (l : Lexer) (t : Token) : Option Lexer := do
  let l ← (l.closeBlocks none).dropKey?
  return { l.push t with source := l.source.advance 3, keyAllowed := false }

def openFlow? (l : Lexer) (t : Token) : Option Lexer := do
  let l ← l.markKey?
  return { l.push t with
    source := l.source.advance 1
    outerKeys := l.possibleKey :: l.outerKeys
    possibleKey := none
    keyAllowed := true }

def closeFlow? (l : Lexer) (t : Token) : Option Lexer := do
  let l ← l.dropKey?
  let (possibleKey, outerKeys) :=
    match l.outerKeys with
    | [] => (none, [])
    | k :: ks => (k, ks)
  return { l.push t with
    source := l.source.advance 1
    outerKeys := outerKeys
    possibleKey := possibleKey
    keyAllowed := false }

def flowEntry? (l : Lexer) : Option Lexer := do
  let l ← l.dropKey?
  return { l.push .flowEntry with source := l.source.advance 1, keyAllowed := true }

/-- An indicator that opens a block collection where it may stand. -/
def openEntry? (l : Lexer) (start : Token) : Option Lexer :=
  if l.inFlow then some l
  else if l.keyAllowed then some (l.openBlock l.source.column l.tokens.size start)
  else none

def blockEntry? (l : Lexer) : Option Lexer := do
  let l ← (← l.openEntry? .blockSequenceStart).dropKey?
  return { l.push .blockEntry with source := l.source.advance 1, keyAllowed := true }

def explicitKey? (l : Lexer) : Option Lexer := do
  let l ← (← l.openEntry? .blockMappingStart).dropKey?
  return { l.push .key with source := l.source.advance 1, keyAllowed := !l.inFlow }

/-- A colon behind a possible key opens that key; any other begins a value without one. -/
def value? (l : Lexer) : Option Lexer :=
  match l.possibleKey with
  | some k =>
    let opened := { l with tokens := l.tokens.insertIdxIfInBounds k.position .key }
    let opened := opened.openBlock k.column k.position .blockMappingStart
    some { opened.push .value with
      source := l.source.advance 1, possibleKey := none, keyAllowed := false }
  | none => do
    let l ← l.openEntry? .blockMappingStart
    return { l.push .value with source := l.source.advance 1, keyAllowed := !l.inFlow }

/-- Adds a scalar. Behind a line end a key may follow. -/
def pushScalar (l : Lexer) (plain : Bool) (scanned : ScannedScalar) : Lexer :=
  { l.push (.scalar plain (String.ofList scanned.text)) with
    source := scanned.source, keyAllowed := scanned.broken }

def plainScalar? (l : Lexer) : Option Lexer := do
  let l ← l.markKey?
  let scanned ← scanPlain? l.inFlow l.contentColumn (l.source.rest.length + 1) l.source [] .empty
  return l.pushScalar true scanned

def quotedScalar? (l : Lexer) (double : Bool) : Option Lexer := do
  let l ← l.markKey?
  let scanned ← scanQuoted? double (l.source.rest.length + 1) (l.source.advance 1) []
  return l.pushScalar false scanned

/-- A key may follow a block scalar, which always ends at a line's start. -/
def blockScalar? (l : Lexer) (literal : Bool) : Option Lexer := do
  let l ← l.dropKey?
  let scanned ← scanBlock? literal l.indents.head? (l.source.advance 1)
  return { l.pushScalar false scanned with keyAllowed := true }

/-- Whether a plain scalar may begin with the text. -/
def startsPlain (inFlow : Bool) (c : Char) (rest : List Char) : Bool :=
  let indicators := ['-', '?', ':', ',', '[', ']', '{', '}', '#', '&', '*', '!', '|', '>',
    '\'', '"', '%', '@', '\x60']
  !(isBlankOrBreak c || indicators.contains c) ||
    (c = '-' && !rest.head?.any isSpaceOrTab) ||
    (!inFlow && (c = '?' || c = ':') && !startsBlank rest)

/-- Reads the next token, which begins with `c`. -/
def next? (l : Lexer) (c : Char) (rest : List Char) : Option Lexer :=
  if l.source.atDocumentStart then l.documentMarker? .documentStart
  else if l.source.atDocumentEnd then l.documentMarker? .documentEnd
  else if c = '[' then l.openFlow? .flowSequenceStart
  else if c = '{' then l.openFlow? .flowMappingStart
  else if c = ']' then l.closeFlow? .flowSequenceEnd
  else if c = '}' then l.closeFlow? .flowMappingEnd
  else if c = ',' then l.flowEntry?
  else if c = '-' && startsBlank rest then l.blockEntry?
  else if c = '?' && (l.inFlow || startsBlank rest) then l.explicitKey?
  else if c = ':' && (l.inFlow || startsBlank rest) then l.value?
  else if c = '|' && !l.inFlow then l.blockScalar? true
  else if c = '>' && !l.inFlow then l.blockScalar? false
  else if c = '\'' then l.quotedScalar? false
  else if c = '"' then l.quotedScalar? true
  else if startsPlain l.inFlow c rest then l.plainScalar?
  else none

/-- At the end of the text nothing may be left open but block collections. -/
def finish? (l : Lexer) : Option (Array Token) := do
  let l ← (l.closeBlocks none).dropKey?
  return l.tokens

def run? : Nat → Lexer → Option (Array Token)
  | 0, _ => none
  | fuel + 1, l => do
    let l ← (skipToToken (l.source.rest.length + 1) l).dropStale?
    let l := l.closeBlocks (some l.source.column)
    match l.source.rest with
    | [] => l.finish?
    | c :: rest => run? fuel (← l.next? c rest)

end Lexer

/-- The tokens of a text, if it can be cut into tokens at all. A byte order mark at the front
is passed over and takes no column. -/
def tokens? (text : String) : Option (List Token) :=
  let cs :=
    match text.toList with
    | '\uFEFF' :: cs => cs
    | cs => cs
  if cs.all isAllowed then (Lexer.run? (cs.length + 1) (.ofChars cs)).map Array.toList else none

end GuidedDataflow.Yaml
