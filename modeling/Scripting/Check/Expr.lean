import Scripting.Check.State
import Scripting.Typed.Conversion

/-!
# Checking expressions

Checking an expression gives a typed one and tells whether it is only a stand-in for an operator that
was not found: the operand left over from it. Whoever uses a stand-in, or an expression of the error
type, reports nothing more about it.
-/

namespace Scripting.Checking

/-- A checked expression, and whether it stands in for an operator that was not found. -/
abbrev Checked := Typed.Expr × Bool

/-- Insists that an expression has a value. -/
def requireValue (span : Span) (step : Checking Checked) : Checking Checked := do
  let (e, standIn) ← step
  if e.type = .void then
    report span .expressionMustHaveValue
    return (.error, standIn)
  else return (e, standIn)

/-- Converts an expression to `target`, if that is allowed here. -/
def convert (span : Span) (e : Typed.Expr) (target : Ty) (written standIn : Bool) :
    Checking Typed.Expr := do
  let source := e.type
  let silent := standIn || source = .error || target = .error
  match Conversion.classify source target with
  | .none =>
    unless silent do report span (.cannotConvert source.name target.name)
    return .error
  | .identity => return e
  | .implicit => return .convert target e
  | .explicit =>
    if written then return .convert target e
    else
      unless silent do report span (.cannotConvertImplicitly source.name target.name)
      return .error

/-- Insists on a value, and converts it. -/
def requireType (span : Span) (step : Checking Checked) (target : Ty) (written : Bool) :
    Checking Typed.Expr := do
  let (e, standIn) ← requireValue span step
  convert span e target written standIn

/-- A name used as a variable. -/
def named (name : Surface.Name) : Checking Typed.Expr := do
  let c ← get
  match c.scope.findVariable? name.text with
  | some v => return .name v (c.symbols.variableType v)
  | none =>
    report name.span (.undefinedVariable name.text)
    return .error

def unary (operator : Token) (operand : Checked) : Checking Checked := do
  let (e, standIn) := operand
  if e.type = .error then return (.error, false)
  else if standIn then return (e, true)
  else match UnaryOp.find? operator.kind e.type with
    | some o => return (.unary o e, false)
    | none =>
      report operator.span (.undefinedUnaryOperator operator.value e.type.name)
      return (e, true)

def binary (operator : Token) (left right : Checked) : Checking Checked := do
  let (l, leftStandIn) := left
  let (r, rightStandIn) := right
  if l.type = .error || r.type = .error then return (.error, false)
  else if leftStandIn || rightStandIn then return (l, true)
  else match BinaryOp.find? operator.kind l.type r.type with
    | some o => return (.binary l o r, false)
    | none =>
      report operator.span (.undefinedBinaryOperator operator.value l.type.name r.type.name)
      return (l, true)

/-- An assignment to a variable that is in scope. -/
def assignTo (v : VarId) (target : Surface.Name) (operator : Token) (valueSpan : Span)
    (value : Checked) : Checking Typed.Expr := do
  let (e, standIn) := value
  let symbols := (← get).symbols
  let type := symbols.variableType v
  if ((symbols.variableAt? v).map (·.readOnly)).getD false then
    report target.span (.readOnlyAssignment target.text)
  match operator.kind.compound? with
  | none => return .assign v (← convert valueSpan e type false standIn) type
  | some mark =>
    if standIn || e.type = .error || type = .error then return .error
    else match BinaryOp.find? (.punct mark) type e.type with
      | some o => return .compound v o e type
      | none =>
        report operator.span (.undefinedBinaryOperator mark.text type.name e.type.name)
        return .error

/-- An assignment of a checked value. A plain one to an unknown name declares it, where that is
allowed. -/
def assign (target : Surface.Name) (operator : Token) (valueSpan : Span) (value : Checked) :
    Checking Typed.Expr := do
  let c ← get
  match c.scope.findVariable? target.text with
  | some v => assignTo v target operator valueSpan value
  | none =>
    if operator.kind.compound?.isNone && c.options.implicitDeclarations then
      let e := value.1
      let v ← declareVariable target.text target.span false e.type
      return .assign v e e.type
    else
      report target.span (.undefinedVariable target.text)
      return .error

/-- A call with checked arguments. -/
def call (callee : Surface.Name) (arguments : List Checked) : Checking Typed.Expr := do
  let es := arguments.map (·.1)
  let types := es.map (·.type)
  if arguments.any (·.2) || types.contains .error then return .error
  else
    let c ← get
    match c.scope.findFunction? callee.text types with
    | some f => return .call f es (c.symbols.returnType f)
    | none =>
      report callee.span (.undefinedFunction (signature callee.text types))
      return .error

/-- A call as it is written: with one argument, the name of a type converts it. -/
def callOrConvert (callee : Surface.Name) (spans : List Span) (arguments : List Checked) :
    Checking Typed.Expr :=
  match Ty.ofName? callee.text, spans, arguments with
  | some target, [span], [(e, standIn)] => convert span e target true standIn
  | _, _, _ => call callee arguments

mutual

/-- An expression, possibly without a value. -/
def expr (e : Surface.Expr) : Checking Checked :=
  nested e.span (.error, false) <|
    match e with
    | .number n _ => return (.literal (.int n), false)
    | .text s _ => return (.literal (.text s), false)
    | .boolean b _ => return (.literal (.boolean b), false)
    | .name n => return (← named n, false)
    | .binary l o r _ => do
      let left ← requireValue l.span (expr l)
      let right ← requireValue r.span (expr r)
      binary o left right
    | .unary o e _ => do unary o (← requireValue e.span (expr e))
    | .assign n o e _ => do
      let value ← requireValue e.span (expr e)
      return (← assign n o e.span value, false)
    | .call f es _ => do
      let arguments ← values es
      return (← callOrConvert f (es.map (·.span)) arguments, false)

/-- Expressions with values, from left to right. -/
def values : List Surface.Expr → Checking (List Checked)
  | [] => return []
  | e :: es => do
    let first ← requireValue e.span (expr e)
    return first :: (← values es)

end

/-- An expression that must have a value. -/
def value (e : Surface.Expr) : Checking Checked := requireValue e.span (expr e)

end Scripting.Checking
