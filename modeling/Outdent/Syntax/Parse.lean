import Outdent.Syntax.Grammar.Exchange
/-! # Modules

The grammar of modules, in which every production is read by its rule, and the reading of a whole
text. A text that is no module has a first fault: the position where reading fails, or else the
first one that was reported.
-/
namespace Outdent.Syntax

/-- One round of the grammar: every production by its rule, where the constructs within are read by
another grammar. -/
def Grammar.rules (g : Grammar) : Grammar
  | .expression => Grammar.expression g
  | .assignment => Grammar.assignment g
  | .binary => Grammar.binary g
  | .operators left bound => Grammar.operators g left bound
  | .unary => Grammar.unary g
  | .leftHand => Grammar.leftHand g
  | .newOperand => Grammar.memberOperand g
  | .object => Grammar.object g
  | .element place => Grammar.element g place
  | .pattern => Grammar.pattern g
  | .type => Grammar.type g
  | .plainType => Grammar.plainType g
  | .operatorType => Grammar.operatorType g
  | .block => Grammar.block g
  | .statement => Grammar.statement g false []
  | .listItem => Grammar.listItem g
  | .moduleItem => Grammar.moduleItem g
  | .namespaceBody => Grammar.namespaceBody g

def Grammar.ofDepth : Nat → Grammar
  | 0 => fun _ => Reader.fail
  | depth + 1 => fun production => Grammar.rules (ofDepth depth) production

/-- The bound of the productions that are read within each other without a token between them. -/
def Grammar.depthPerToken : Nat := 64

def Grammar.moduleItems (g : Grammar) : Reader (List Node) :=
  Reader.collect do
    if ← Reader.onEnd then return none
    return some (← g .moduleItem)

def State.ofText (elements : Bool) (text : List Char) : State :=
  let scan := Scan.ofInput 0 (Input.ofText text)
  { context := { elements }
    token := scan.token
    rest := scan.rest
    previousStop := 0
    faults := scan.faults.reverse
    budget := text.length + 2 }

/-- Reads a text as a module. Where it is none, gives the position of its fault. -/
def Module.ofText (elements : Bool) (text : List Char) : Except Nat Module :=
  let grammar := Grammar.ofDepth (Grammar.depthPerToken * (text.length + 2))
  match Grammar.moduleItems grammar (State.ofText elements text) with
  | (.error position, _) => .error position
  | (.ok items, s) =>
    match s.faults.getLast? with
    | some position => .error position
    | none => .ok ⟨items⟩

end Outdent.Syntax
