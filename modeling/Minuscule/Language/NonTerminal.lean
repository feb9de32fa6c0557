/-!
The non-terminals of C-minus, in the order in which sets and tables list them, with the names that
messages and trees show.
-/

namespace Minuscule

inductive NonTerminal where
  | program | defineList | define | defineType | varDefineFollow | type | funDefineFollow
  | params | paramList | paramFollow | param | arraySubscript | codeBlock | localDefineList
  | localVarDefine | codeList | code | normalStatement | normalStatementFollow | callFollow
  | selectionStatement | selectionFollow | iterationStatement | iterationFollow
  | returnStatement | returnFollow | varFollow | expression | expressionFollow | relOp
  | additiveExpr | additiveExprFollow | addOp | term | termFollow | mulOp | factor
  | idFactorFollow | args | argList | argListFollow
  deriving DecidableEq, Ord, Repr

namespace NonTerminal

def all : List NonTerminal :=
  [program, defineList, define, defineType, varDefineFollow, type, funDefineFollow, params,
    paramList, paramFollow, param, arraySubscript, codeBlock, localDefineList, localVarDefine,
    codeList, code, normalStatement, normalStatementFollow, callFollow, selectionStatement,
    selectionFollow, iterationStatement, iterationFollow, returnStatement, returnFollow,
    varFollow, expression, expressionFollow, relOp, additiveExpr, additiveExprFollow, addOp,
    term, termFollow, mulOp, factor, idFactorFollow, args, argList, argListFollow]

def text : NonTerminal → String
  | program => "program"
  | defineList => "define-list"
  | define => "define"
  | defineType => "define-type"
  | varDefineFollow => "var-define-follow"
  | type => "type"
  | funDefineFollow => "fun-define-follow"
  | params => "params"
  | paramList => "param-list"
  | paramFollow => "param-follow"
  | param => "param"
  | arraySubscript => "array-subscript"
  | codeBlock => "code-block"
  | localDefineList => "local-define-list"
  | localVarDefine => "local-var-define"
  | codeList => "code-list"
  | code => "code"
  | normalStatement => "normal-statement"
  | normalStatementFollow => "normal-statement-follow"
  | callFollow => "call-follow"
  | selectionStatement => "selection-statement"
  | selectionFollow => "selection-follow"
  | iterationStatement => "iteration-statement"
  | iterationFollow => "iteration-follow"
  | returnStatement => "return-statement"
  | returnFollow => "return-follow"
  | varFollow => "var-follow"
  | expression => "expression"
  | expressionFollow => "expression-follow"
  | relOp => "rel-op"
  | additiveExpr => "additive-expr"
  | additiveExprFollow => "additive-expr-follow"
  | addOp => "add-op"
  | term => "term"
  | termFollow => "term-follow"
  | mulOp => "mul-op"
  | factor => "factor"
  | idFactorFollow => "id-factor-follow"
  | args => "args"
  | argList => "arg-list"
  | argListFollow => "arg-list-follow"

instance : ToString NonTerminal := ⟨text⟩

instance : Std.TransOrd NonTerminal :=
  inferInstanceAs (Std.TransCmp (compareOn NonTerminal.ctorIdx))

instance : Std.LawfulEqOrd NonTerminal where
  compare_self {a} := @Std.ReflCmp.compare_self Nat compare _ a.ctorIdx
  eq_of_compare {a b} same := by
    have index : a.ctorIdx = b.ctorIdx := @Std.LawfulEqCmp.eq_of_compare Nat compare _ _ _ same
    rw [← ofNat_ctorIdx a, index, ofNat_ctorIdx]

end NonTerminal

end Minuscule
