import Outdent.Syntax.Grammar.Annotation
/-! # Arguments and decorators -/
namespace Outdent.Syntax.Grammar
open Reader

def spreadable (g : Grammar) : Reader Node := do
  let start ← here
  if ← take .ellipsis then
    let inside ← within ({ · with inJoins := true }) (g .assignment)
    node .spread start [inside]
  else within ({ · with inJoins := true }) (g .assignment)

def arguments (g : Grammar) : Reader (List Node) :=
  within ({ · with colonDue := false }) do
    need .openParen
    let found ← separated .closeParen (spreadable g)
    need .closeParen
    return found

/-- What is called or applied by a decorator: a name with members, or an expression in
parentheses. -/
def decoratorTarget (g : Grammar) : Reader Node := do
  if ← take .openParen then
    let inside ← g .expression
    need .closeParen
    return inside
  let start ← here
  let first ← identifier false
  repeating first fun target => do
    if ← take .dot then
      let member ← memberName
      return some (← node .member start [target, member])
    return none

def decorator (g : Grammar) : Reader Node := do
  let start ← here
  need .at
  let target ← decoratorTarget g
  let types ← if ← on .less then pure [← typeArguments g] else pure []
  if types.isEmpty && !(← on .openParen) then return ← node .decorator start [target]
  let given ← arguments g
  node .decorator start (target :: given ++ types)

def startWith (marks : List Node) (start : Nat) : Nat := (marks.head?.map Node.start).getD start

def decorators (g : Grammar) : Reader (List Node) :=
  collect do if ← on .at then return some (← decorator g) else return none

end Outdent.Syntax.Grammar
