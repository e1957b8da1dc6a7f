import Outdent.Rewrite
/-! # Sessions

A session keeps one document and the options in force while steps change either of them. A step
that fails leaves both as they were.
-/
namespace Outdent

structure Session where
  document : Document
  options : Options
deriving DecidableEq

namespace Session

inductive Step where
  | transform
  | rewrite
  | edit (edits : List Edit)
  | append (text : List Char)
  | prepend (text : List Char)
  | rename (id : String)
  | setOptions (options : Options)
  | configure (content : String)

inductive Outcome where
  /-- Whether the filter lets the document through, and what was rewritten with how many
  mappings. -/
  | transformed (isEligible : Bool) (stats : Option Marker.Stats) (mappings : Option Nat)
  | rewritten (stats : Option Marker.Stats)
  | configured (options : Options)
  | done
deriving DecidableEq

def withText (s : Session) (text : List Char) : Session :=
  { s with document := { s.document with text } }

def afterRewrite (s : Session) (result : Option Rewritten) : Session :=
  match result with
  | some r => s.withText r.code
  | none => s

def step (s : Session) : Step → Except Error (Session × Outcome)
  | .transform => do
    let transformer ← Transformer.ofOptions s.options
    let result ← transformer.transform s.document
    return (s.afterRewrite result,
      .transformed (transformer.filter.isEligible s.document.id) (result.map (·.stats))
        (result.bind fun r => r.map.map (·.mappings.length)))
  | .rewrite => do
    let result ← s.document.rewrite none
    return (s.afterRewrite result, .rewritten (result.map (·.stats)))
  | .edit edits =>
    match Edit.apply s.document.text edits with
    | .ok text => .ok (s.withText text, .done)
    | .error fault => .error (.edit s.document.id fault)
  | .append text => .ok (s.withText (s.document.text ++ text), .done)
  | .prepend text => .ok (s.withText (text ++ s.document.text), .done)
  | .rename id => .ok ({ s with document := { s.document with id } }, .done)
  | .setOptions options => .ok ({ s with options }, .done)
  | .configure content =>
    match Options.parse content with
    | .ok options => .ok ({ s with options }, .configured options)
    | .error (line, column) => .error (.config line column)

def advance (s : Session) (next : Step) : Session × Except Error Outcome :=
  match s.step next with
  | .ok (after, outcome) => (after, .ok outcome)
  | .error fault => (s, .error fault)

/-- Carries out steps in order: what each tells or why it failed, with the session after it. -/
def run (s : Session) : List Step → List (Session × Except Error Outcome)
  | [] => []
  | next :: rest => s.advance next :: (s.advance next).1.run rest

end Session

end Outdent
