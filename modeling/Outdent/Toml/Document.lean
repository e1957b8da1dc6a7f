import Outdent.Toml.Scalar
/-! # TOML documents

The lines of a document are gathered into one table. Headers open tables, dotted keys reach into
them, and a table that was spelled out once cannot be spelled out again. Every key and value
keeps its first byte, for faults that are found later.
-/
namespace Outdent.Toml

structure Field (α : Type) where
  key : List Char
  keyStart : Nat
  start : Nat
  value : α

inductive TableOrigin where
  | header
  | implied
  | dotted
  | inline
deriving DecidableEq

/-- A value; an array knows whether its items are tables opened by headers. -/
inductive Value where
  | scalar (content : Scalar)
  | array (ofHeaders : Bool) (items : List (Nat × Value))
  | table (origin : TableOrigin) (fields : List (Field Value))

structure Name where
  text : List Char
  start : Nat

def names : List Lexeme → Except Nat (List Name)
  | [] => .ok []
  | l :: ls => do return ⟨← keyName l, l.start⟩ :: (← names ls)

abbrev Fields := List (Field Value)

/-- Changes the fields of the table at the end of a path, making tables on the way. `dotted`
says whether the path belongs to a dotted key; such a path may not enter a table that was spelled
out. -/
def changeAt (dotted : Bool) (change : TableOrigin → Fields → Except Nat Fields) :
    (origin : TableOrigin) → List Name → Fields → Except Nat Fields
  | origin, [], fields => change origin fields
  | _, n :: ns, fields =>
    let made : TableOrigin := if dotted then .dotted else .implied
    match fields.find? (·.key = n.text) with
    | none => do
      let inner ← changeAt dotted change made ns []
      return fields ++ [⟨n.text, n.start, n.start, .table made inner⟩]
    | some found => do
      let entered ← match found.value with
        | .table origin inner =>
          if origin = .inline || (dotted && origin = .header) then throw n.start
          else do
            let inner ← changeAt dotted change origin ns inner
            pure (Value.table origin inner)
        | .array true items =>
          match items.getLast? with
          | some (start, .table origin inner) => do
            let inner ← changeAt dotted change origin ns inner
            pure (Value.array true (items.dropLast ++ [(start, .table origin inner)]))
          | _ => throw n.start
        | _ => throw n.start
      return fields.map fun f => if f.key = n.text then { f with value := entered } else f

def addField (field : Field Value) (fields : Fields) : Except Nat Fields :=
  if fields.any (·.key = field.key) then .error field.keyStart else .ok (fields ++ [field])

def addEntry (key : List Name) (start : Nat) (v : Value) (origin : TableOrigin)
    (fields : Fields) : Except Nat Fields :=
  match key.getLast? with
  | none => .ok fields
  | some n =>
    let dotted := key.length > 1
    changeAt dotted
      (fun origin fields =>
        if dotted && origin != .dotted then throw n.start
        else if !dotted && origin = .dotted then throw n.start
        else addField ⟨n.text, n.start, start, v⟩ fields)
      origin key.dropLast fields

mutual

def Value.ofRaw : RawValue → Except Nat (Nat × Value)
  | .scalar l => do return (l.start, .scalar (← Scalar.ofLexeme l))
  | .array start items => do return (start, .array false (← itemsOfRaw items))
  | .inlineTable start entries => do return (start, .table .inline (← fieldsOfRaw [] entries))

def itemsOfRaw : List RawValue → Except Nat (List (Nat × Value))
  | [] => .ok []
  | v :: vs => do return (← Value.ofRaw v) :: (← itemsOfRaw vs)

def fieldsOfRaw (fields : Fields) : List (List Lexeme × RawValue) → Except Nat Fields
  | [] => .ok fields
  | (key, raw) :: rest => do
    let key ← names key
    let (start, v) ← Value.ofRaw raw
    fieldsOfRaw (← addEntry key start v .inline fields) rest

end

/-- Opens the table of a header. A table that was only implied so far is spelled out now. -/
def openTable (start : Nat) (key : List Name) (fields : Fields) : Except Nat Fields :=
  match key.getLast? with
  | none => .ok fields
  | some n =>
    changeAt false
      (fun _ fields =>
        match fields.find? (·.key = n.text) with
        | none => .ok (fields ++ [⟨n.text, n.start, start, .table .header []⟩])
        | some ⟨_, _, _, .table .implied inner⟩ =>
          .ok (fields.filter (·.key != n.text) ++ [⟨n.text, n.start, start, .table .header inner⟩])
        | some _ => .error n.start)
      .header key.dropLast fields

def openArrayTable (start : Nat) (key : List Name) (fields : Fields) : Except Nat Fields :=
  match key.getLast? with
  | none => .ok fields
  | some n =>
    changeAt false
      (fun _ fields =>
        match fields.find? (·.key = n.text) with
        | none =>
          .ok (fields ++ [⟨n.text, n.start, start, .array true [(start, .table .header [])]⟩])
        | some ⟨_, _, _, .array true _⟩ =>
          .ok (fields.map fun f =>
            match f.value with
            | .array true items =>
              if f.key = n.text then
                { f with value := .array true (items ++ [(start, .table .header [])]) }
              else f
            | _ => f)
        | some _ => .error n.start)
      .header key.dropLast fields

/-- Gathers lines into the fields of the document. `path` is the header in force. -/
def gather (path : List Name) (fields : Fields) : List Line → Except Nat Fields
  | [] => .ok fields
  | .entry key raw :: rest => do
    let key ← names key
    let (start, v) ← Value.ofRaw raw
    let fields ← changeAt false (fun _ => addEntry key start v .header) .header path fields
    gather path fields rest
  | .table start key :: rest => do
    let key ← names key
    gather key (← openTable start key fields) rest
  | .arrayTable start key :: rest => do
    let key ← names key
    gather key (← openArrayTable start key fields) rest

/-- The fields of a document, or the byte offset of the first fault. -/
def parse (text : List Char) : Except Nat Fields := do
  gather [] [] (← layout text)

def walkTo : (ahead line column bytes : Nat) → List Char → Nat × Nat
  | _, line, column, _, [] => (line, column)
  | ahead, line, column, bytes, c :: cs =>
    if ahead < c.utf8Size then
      (line, if ahead + 1 = c.utf8Size then column else bytes + ahead)
    else if c = '\n' then walkTo (ahead - 1) (line + 1) 0 0 cs
    else walkTo (ahead - c.utf8Size) line (column + 1) (bytes + c.utf8Size) cs

/-- The line and column, counted from one, at which a fault is reported. A column counts
characters; in front of a character of several bytes it counts bytes instead. -/
def position (text : List Char) (offset : Nat) : Nat × Nat :=
  let reached := min offset (Text.byteLength text - 1)
  let (line, column) := walkTo reached 0 0 0 text
  (line + 1, column + (offset - reached) + 1)

end Outdent.Toml
