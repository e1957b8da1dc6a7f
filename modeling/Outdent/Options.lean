import Outdent.PositionMap
import Outdent.Toml.Document
/-! # Options

What a rewrite is configured with: patterns for the documents to take up, whether to build a
position map, and how fine. They are read from a TOML document with the keys `include`,
`exclude`, `sourcemap` and `resolution`; the last two have longer names as well.
-/
namespace Outdent

structure Options where
  included : List String := []
  excluded : List String := []
  emitMap : Bool := false
  resolution : Resolution := .boundary
deriving DecidableEq

namespace Options

def positionMap (o : Options) : Option Resolution :=
  if o.emitMap then some o.resolution else none

inductive Key where
  | included
  | excluded
  | emitMap
  | resolution
deriving DecidableEq

def Key.ofName? (name : String) : Option Key :=
  match name with
  | "include" => some .included
  | "exclude" => some .excluded
  | "emit_position_map" | "sourcemap" => some .emitMap
  | "map_resolution" | "resolution" => some .resolution
  | _ => none

def textItems : List (Nat × Toml.Value) → Except Nat (List String)
  | [] => .ok []
  | (_, .scalar (.text t)) :: rest => do return String.ofList t :: (← textItems rest)
  | (start, _) :: _ => .error start

def resolutionOfName? (name : String) : Option Resolution :=
  match name with
  | "boundary" => some .boundary
  | "char" => some .char
  | _ => none

/-- A resolution is named by a text, or by the only key of a table with nothing below it. -/
def resolutionOf (start : Nat) : Toml.Value → Except Nat Resolution
  | .scalar (.text t) => (resolutionOfName? (String.ofList t)).elim (.error start) .ok
  | .table _ [field] =>
    match resolutionOfName? (String.ofList field.key) with
    | none => .error field.keyStart
    | some r =>
      match field.value with
      | .table _ [] => .ok r
      | .array _ [] => .ok r
      | _ => .error field.start
  | _ => .error start

def set (o : Options) (key : Key) (start : Nat) (v : Toml.Value) : Except Nat Options :=
  match key, v with
  | .included, .array _ items => do return { o with included := ← textItems items }
  | .excluded, .array _ items => do return { o with excluded := ← textItems items }
  | .emitMap, .scalar (.boolean b) => .ok { o with emitMap := b }
  | .resolution, v => do return { o with resolution := ← resolutionOf start v }
  | _, _ => .error start

/-- Sets options field by field. An unknown key is a fault at the key. An option named twice,
under both of its names, is a fault of the document as a whole. -/
def setAll (o : Options) (seen : List Key) : Toml.Fields → Except Nat Options
  | [] => .ok o
  | f :: fs => do
    match Key.ofName? (String.ofList f.key) with
    | none => throw f.keyStart
    | some key =>
      if seen.contains key then throw 0
      else setAll (← o.set key f.start f.value) (key :: seen) fs

def insertByKey (f : Toml.Field Toml.Value) : Toml.Fields → Toml.Fields
  | [] => [f]
  | g :: gs => if f.key < g.key then f :: g :: gs else g :: insertByKey f gs

/-- Options from a TOML document, or the line and column of the first fault. Fields are taken in
the order of their keys. -/
def parse (content : String) : Except (Nat × Nat) Options :=
  let text := content.toList
  let result := do
    let fields ← Toml.parse text
    setAll {} [] (fields.foldr insertByKey [])
  match result with
  | .ok o => .ok o
  | .error offset => .error (Toml.position text offset)

end Options

end Outdent
