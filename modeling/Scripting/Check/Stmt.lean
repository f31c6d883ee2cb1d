import Scripting.Check.Expr

/-!
# Checking statements

Statements are checked in the order they are written. The bodies of functions are not checked where
they stand: a declaration only enters the signature, so that calls may come before it.
-/

namespace Scripting.Checking

/-- An expression used as a statement. In a function it has to do something: assign or call. -/
def exprStmt (span : Span) (step : Checking Checked) : Checking Typed.Stmt := do
  let (e, _) ← step
  let allowed := match e with
    | .assign .. | .compound .. | .call .. | .error => true
    | _ => false
  if (← get).function?.isSome && !allowed then report span .invalidExpressionStatement
  return .instr (.eval e)

/-- The declaration of a variable, typed by its initial value unless a type is written. -/
def declare (d : Surface.VariableDecl) : Checking Typed.Stmt := do
  let written? ← d.type?.mapM typeOf
  let (e, standIn) ← value d.value
  let type := written?.getD e.type
  let v ← declareVariable d.name.text d.name.span d.readOnly type
  return .instr (.declare v (← convert d.value.span e type false standIn))

def condition (e : Surface.Expr) : Checking Typed.Expr :=
  requireType e.span (expr e) .boolean false

/-- `break` or `continue`, by its keyword. -/
def leaveLoop (keyword : Keyword) (span : Span) : Checking Typed.Stmt := do
  match (← get).loops with
  | (onBreak, onContinue) :: _ =>
    return .instr (.jump (if keyword = .break_ then onBreak else onContinue))
  | [] =>
    report span (.invalidBreakOrContinue keyword.text)
    return .error

/-- A `return` in the function of the given symbol. -/
def returnFrom (f : FunctionSymbol) (span : Span) (value? : Option (Span × Checked)) :
    Checking Typed.Stmt := do
  match value? with
  | some (valueSpan, e, standIn) =>
    if f.returns = .void then
      report valueSpan (.invalidReturnExpression f.name)
      return .instr (.ret none)
    else return .instr (.ret (some (← convert valueSpan e f.returns false standIn)))
  | none =>
    if f.returns ≠ .void && f.returns ≠ .error then
      report span (.missingReturnExpression f.returns.name)
    return .instr (.ret none)

def returns (value? : Option Surface.Expr) (span : Span) : Checking Typed.Stmt := do
  let checked? ← value?.mapM fun e => return (e.span, ← value e)
  let c ← get
  match c.function?.bind c.symbols.functionAt? with
  | some f => returnFrom f span checked?
  | none =>
    report span .invalidReturn
    return .instr (.ret (checked?.map (·.2.1)))

mutual

def stmt (s : Surface.Stmt) : Checking Typed.Stmt :=
  nested s.span .error <|
    match s with
    | .block ss _ => return .block (← inLayer (stmts ss))
    | .expr e => exprStmt e.span (expr e)
    | .declare d => declare d
    | .ifThen c t _ => return .ifThen (← condition c) (← stmt t)
    | .ifElse c t e _ => return .ifElse (← condition c) (← stmt t) (← stmt e)
    | .whileLoop c b _ => do
      let c ← condition c
      let (b, onBreak, onContinue) ← inLoop (stmt b)
      return .whileLoop c b onBreak onContinue
    | .doWhile b c _ => do
      let (b, onBreak, onContinue) ← inLoop (stmt b)
      return .doWhile b (← condition c) onBreak onContinue
    | .forLoop i c n b _ => inLayer do
      let i ← stmt i
      let c ← condition c
      let (n, _) ← expr n
      let (b, onBreak, onContinue) ← inLoop (stmt b)
      return .forLoop i c n b onBreak onContinue
    | .breakLoop span => leaveLoop .break_ span
    | .continueLoop span => leaveLoop .continue_ span
    | .returns v? span => returns v? span
    | .function h _ => do
      report h.name.span .functionNotGlobal
      return .block []

def stmts : List Surface.Stmt → Checking (List Typed.Stmt)
  | [] => return []
  | s :: ss => return (← stmt s) :: (← stmts ss)

end

/-- The statements of a block, in a layer of their own. -/
def block (ss : List Surface.Stmt) : Checking Typed.Stmt := return .block (← inLayer (stmts ss))

/-- The parameters of a function: typed, and entered in the symbols unless the name was used before. -/
def parameters (seen : List String) : List Surface.Parameter → Checking (List ParameterSymbol)
  | [] => return []
  | p :: ps => do
    let type ← typeOf p.type
    if seen.contains p.name then
      report p.span (.parameterAlreadyDeclared p.name)
      parameters seen ps
    else
      let c ← get
      let (target, symbols) := c.symbols.addVariable ⟨p.name, type, true, .parameter⟩
      set { c with symbols := symbols }
      return ⟨p.name, type, target⟩ :: (← parameters (p.name :: seen) ps)

/-- The type a function returns; only here `void` may be written. -/
def returnType : Option Surface.Name → Checking Ty
  | none => return .void
  | some name => if name.text = "void" then return .void else typeOf name

/-- The symbol of a declared function. -/
def symbolOf (d : Declaration) : Checking FunctionSymbol := do
  let parameters ← parameters [] d.head.parameters
  let returns ← returnType d.head.returns?
  return ⟨d.head.name.text, parameters, returns, some d, none⟩

/-- Enters the signature of a function. -/
def function (d : Declaration) : Checking Unit := do
  declareFunction d.head.name.span (← symbolOf d)

end Scripting.Checking
