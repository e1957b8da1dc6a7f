import Outdent.Toml.Token
/-! # The layout of a TOML document

The tokens of a document are arranged into lines: entries with a key and a value, and headers of
tables. Keys and scalars are kept as written. What can go wrong here is the arrangement itself,
and such a fault is found before any fault inside a key or a scalar.
-/
namespace Outdent.Toml

structure Lexeme where
  quotation : Quotation
  start : Nat
  text : List Char

inductive RawValue where
  | scalar (lexeme : Lexeme)
  | array (start : Nat) (items : List RawValue)
  | inlineTable (start : Nat) (entries : List (List Lexeme × RawValue))

inductive Line where
  | entry (key : List Lexeme) (value : RawValue)
  | table (start : Nat) (key : List Lexeme)
  | arrayTable (start : Nat) (key : List Lexeme)

/-- What reading yields: a result, the end of the last token that was not blank, and the tokens
left. Where it fails instead, it fails at a byte offset. -/
abbrev Step (α : Type) : Type := α × Nat × List Token

def isControl (c : Char) : Bool := (c.toNat < 0x20 && c != '\t') || c.toNat == 0x7F

/-- The offset of the first character of a text at `offset` that satisfies `p`. -/
def offsetOf (p : Char → Bool) (offset : Nat) : List Char → Option Nat
  | [] => none
  | c :: cs => if p c then some offset else offsetOf p (offset + c.utf8Size) cs

/-- Checks a comment for control characters, and a line end for a lone carriage return. -/
def checkBlank (t : Token) : Except Nat Unit :=
  match t.kind with
  | .comment =>
    match offsetOf isControl t.start t.text with
    | some offset => .error offset
    | none => .ok ()
  | .newline => if t.text = ['\r'] then .error t.stop else .ok ()
  | _ => .ok ()

def headToken (last : Nat) : List Token → Token
  | [] => ⟨.endOfText, last, []⟩
  | t :: _ => t

def skipSpace : List Token → List Token
  | ⟨.space, _, _⟩ :: ts => ts
  | ts => ts

def skipBlank : List Token → Except Nat (List Token)
  | [] => .ok []
  | t :: ts =>
    match t.kind with
    | .space => skipBlank ts
    | .comment | .newline => do checkBlank t; skipBlank ts
    | _ => .ok (t :: ts)

/-- Atoms run on over dots and over space with more of an atom behind it, as in a date with a
time. -/
def extendAtom (text : List Char) (last : Nat) : List Token → List Char × Nat × List Token
  | t :: ts =>
    match t.kind with
    | .dot | .word .bare => extendAtom (text ++ t.text) t.stop ts
    | .space =>
      match ts with
      | u :: us =>
        match u.kind with
        | .word .bare => extendAtom (text ++ t.text ++ u.text) u.stop us
        | _ => (text, last, t :: ts)
      | [] => (text, last, t :: ts)
    | _ => (text, last, t :: ts)
  | [] => (text, last, [])

def scalar (quotation : Quotation) (t : Token) (ts : List Token) :
    RawValue × Nat × List Token :=
  match quotation with
  | .bare =>
    let (text, last, rest) := extendAtom t.text t.stop ts
    (.scalar ⟨.bare, t.start, text⟩, last, rest)
  | q => (.scalar ⟨q, t.start, t.text⟩, t.stop, ts)

/-- Further parts of a dotted key. A part that is missing reads as an empty bare one. -/
def dottedParts : (fuel : Nat) → (last : Nat) → List Token → List Lexeme × Nat × List Token
  | 0, last, ts => ([], last, ts)
  | fuel + 1, last, ts =>
    match skipSpace ts with
    | ⟨.dot, start, text⟩ :: rest =>
      let dotEnd := (⟨.dot, start, text⟩ : Token).stop
      match skipSpace rest with
      | t :: rest' =>
        match t.kind with
        | .word q =>
          let (more, last, rest'') := dottedParts fuel t.stop rest'
          (⟨q, t.start, t.text⟩ :: more, last, rest'')
        | _ =>
          let (more, last, rest'') := dottedParts fuel dotEnd (t :: rest')
          (⟨.bare, t.start, []⟩ :: more, last, rest'')
      | [] => ([⟨.bare, dotEnd, []⟩], dotEnd, [])
    | _ => ([], last, ts)

def keyParts (last : Nat) (ts : List Token) : List Lexeme × Nat × List Token :=
  let t := headToken last ts
  match t.kind with
  | .word q =>
    let (more, last, rest) := dottedParts ts.length t.stop ts.tail
    (⟨q, t.start, t.text⟩ :: more, last, rest)
  | .dot =>
    let (more, last, rest) := dottedParts ts.length last ts
    (⟨.bare, t.start, []⟩ :: more, last, rest)
  | _ => ([⟨.bare, t.start, []⟩], last, ts)

mutual

/-- A value in the place where one is due. Where the line, the text or an item ends instead, an
empty bare scalar is read. -/
def value : (fuel : Nat) → (last : Nat) → List Token → Except Nat (Step RawValue)
  | 0, last, _ => .error last
  | fuel + 1, last, ts =>
    let t := headToken last ts
    match t.kind with
    | .word q => .ok (scalar q t ts.tail)
    | .dot => .ok (scalar .bare t ts.tail)
    | .openBracket => do
      let (items, last, rest) ← arrayItems fuel t.stop true ts.tail
      return (.array t.start items, last, rest)
    | .openBrace => do
      let (entries, last, rest) ← tableEntries fuel t.stop true ts.tail
      return (.inlineTable t.start entries, last, rest)
    | .comment | .comma | .newline | .endOfText =>
      .ok (.scalar ⟨.bare, t.start, []⟩, last, ts)
    | _ => .error t.start

def arrayItems : (fuel : Nat) → (last : Nat) → (due : Bool) → List Token →
    Except Nat (Step (List RawValue))
  | 0, last, _, _ => .error last
  | fuel + 1, last, due, ts => do
    let ts ← skipBlank ts
    let t := headToken last ts
    match t.kind with
    | .endOfText => .error last
    | .comma => if due then .error t.start else arrayItems fuel t.stop true ts.tail
    | .closeBracket => return ([], t.stop, ts.tail)
    | .equals | .closeBrace => .error t.start
    | _ =>
      if due then
        let (item, last, rest) ← value fuel last ts
        let (items, last, rest) ← arrayItems fuel last false rest
        return (item :: items, last, rest)
      else .error t.start

/-- The entries of an inline table up to its closing brace. `due` holds where an entry may
stand. -/
def tableEntries : (fuel : Nat) → (last : Nat) → (due : Bool) → List Token →
    Except Nat (Step (List (List Lexeme × RawValue)))
  | 0, last, _, _ => .error last
  | fuel + 1, last, due, ts => do
    let ts ← skipBlank ts
    let t := headToken last ts
    match t.kind with
    | .endOfText => .error last
    | .comma => if due then .error t.start else tableEntries fuel t.stop true ts.tail
    | .closeBrace => return ([], t.stop, ts.tail)
    | .word _ | .dot =>
      if due then
        let (key, last, rest) := keyParts last ts
        let rest ← skipBlank rest
        let eq := headToken last rest
        if eq.kind = .equals then
          let rest ← skipBlank rest.tail
          let v := headToken eq.stop rest
          if v.kind = .endOfText then .error eq.stop
          else
            let (item, last, rest) ← value fuel eq.stop rest
            let (entries, last, rest) ← tableEntries fuel last false rest
            return ((key, item) :: entries, last, rest)
        else .error eq.start
      else .error t.start
    | _ => .error t.start

end

/-- The end of a line: space, a comment, then a line end or the end of the text. -/
def lineEnd (ts : List Token) : Except Nat (List Token) := do
  let ts := skipSpace ts
  let ts ← match ts with
    | ⟨.comment, start, text⟩ :: rest => do
      checkBlank ⟨.comment, start, text⟩
      pure rest
    | ts => pure ts
  match ts with
  | [] => return []
  | t :: rest =>
    match t.kind with
    | .newline => do checkBlank t; return rest
    | .endOfText => return []
    | _ => .error t.start

def entryLine (fuel : Nat) (ts : List Token) : Except Nat (Line × List Token) := do
  let (key, last, rest) := keyParts 0 ts
  let rest := skipSpace rest
  let eq := headToken last rest
  if eq.kind = .equals then
    let (v, _, rest) ← value fuel eq.stop (skipSpace rest.tail)
    return (.entry key v, ← lineEnd rest)
  else .error eq.start

def headerLine (start : Nat) (ts : List Token) : Except Nat (Line × List Token) := do
  let (isArray, ts) : Bool × List Token := match ts with
    | ⟨.openBracket, _, _⟩ :: rest => (true, rest)
    | ts => (false, ts)
  let (key, last, rest) := keyParts (start + 1) (skipSpace ts)
  let rest := skipSpace rest
  let close := headToken last rest
  if close.kind = .closeBracket then
    if isArray then
      match rest.tail with
      | ⟨.closeBracket, _, _⟩ :: rest => return (.arrayTable start key, ← lineEnd rest)
      | _ => .error close.stop
    else return (.table start key, ← lineEnd rest.tail)
  else if close.kind = .endOfText && key.all (·.text.isEmpty) then
    return (.table start key, [])
  else .error close.start

/-- The lines of a document, at most `fuel` of them. -/
def layoutFrom : (fuel : Nat) → List Token → Except Nat (List Line)
  | 0, _ => .ok []
  | _, [] => .ok []
  | fuel + 1, t :: ts => do
    match t.kind with
    | .endOfText => return []
    | .space => layoutFrom fuel ts
    | .comment | .newline => do checkBlank t; layoutFrom fuel ts
    | .openBracket => do
      let (line, rest) ← headerLine t.start ts
      return line :: (← layoutFrom fuel rest)
    | .word _ | .equals | .dot => do
      let (line, rest) ← entryLine (2 * ts.length + 4) (t :: ts)
      return line :: (← layoutFrom fuel rest)
    | _ => .error t.start

/-- The lines of a document, or the offset of the first fault in its layout. -/
def layout (text : List Char) : Except Nat (List Line) :=
  let ts := tokens text
  layoutFrom ts.length ts

end Outdent.Toml
