import Minuscule.Grammar
import Minuscule.Language.NonTerminal
import Minuscule.Language.Terminal

/-!
The grammar of C-minus. Every production has a name, and names are listed in the order of the
productions, so that the index which a parse leaves on a node leads back to the name by which the
meaning of the node is chosen.
-/

namespace Minuscule

inductive Rule where
  | program | defineList | defineListEmpty | define | defineTypeVar | defineTypeFun
  | varDefineScalar | varDefineArray | typeInt | typeVoid | funDefineFollow | paramsList
  | paramsVoid | paramsEmpty | paramList | paramFollow | paramFollowEmpty | param
  | arraySubscript | arraySubscriptEmpty | codeBlock | localDefineList | localDefineListEmpty
  | localVarDefine | codeList | codeListEmpty | codeNormal | codeSelection | codeIteration
  | codeReturn | normalStatementEmpty | normalStatementId | normalFollowAssign
  | normalFollowCall | callFollow | selection | selectionElse | selectionEmpty | iteration
  | iterationBlock | iterationCode | returnStatement | returnVoid | returnValue | varFollowIndex
  | varFollowEmpty | expression | expressionFollow | expressionFollowEmpty | relOpLe | relOpLt
  | relOpGt | relOpGe | relOpEq | relOpNe | additiveExpr | additiveFollow
  | additiveFollowEmpty | addOpPlus | addOpMinus | term | termFollow | termFollowEmpty
  | mulOpStar | mulOpSlash | factorParen | factorId | factorNum | idFactorVar | idFactorCall
  | args | argsEmpty | argList | argListFollow | argListFollowEmpty
  deriving DecidableEq, Repr

namespace Rule

def all : Array Rule :=
  #[program, defineList, defineListEmpty, define, defineTypeVar, defineTypeFun, varDefineScalar,
    varDefineArray, typeInt, typeVoid, funDefineFollow, paramsList, paramsVoid, paramsEmpty,
    paramList, paramFollow, paramFollowEmpty, param, arraySubscript, arraySubscriptEmpty,
    codeBlock, localDefineList, localDefineListEmpty, localVarDefine, codeList, codeListEmpty,
    codeNormal, codeSelection, codeIteration, codeReturn, normalStatementEmpty,
    normalStatementId, normalFollowAssign, normalFollowCall, callFollow, selection,
    selectionElse, selectionEmpty, iteration, iterationBlock, iterationCode, returnStatement, returnVoid,
    returnValue, varFollowIndex, varFollowEmpty, expression, expressionFollow,
    expressionFollowEmpty, relOpLe, relOpLt, relOpGt, relOpGe, relOpEq, relOpNe, additiveExpr,
    additiveFollow, additiveFollowEmpty, addOpPlus, addOpMinus, term, termFollow,
    termFollowEmpty, mulOpStar, mulOpSlash, factorParen, factorId, factorNum, idFactorVar,
    idFactorCall, args, argsEmpty, argList, argListFollow, argListFollowEmpty]

def ofIndex? (index : Nat) : Option Rule :=
  all[index]?

def index (rule : Rule) : Nat :=
  rule.ctorIdx

open Sign in
def production : Rule → Production Terminal NonTerminal
  | program => ⟨.program, [nonTerminal .defineList]⟩
  | defineList => ⟨.defineList, [nonTerminal .define, nonTerminal .defineList]⟩
  | defineListEmpty => ⟨.defineList, []⟩
  | define => ⟨.define, [nonTerminal .type, terminal .ident, nonTerminal .defineType]⟩
  | defineTypeVar => ⟨.defineType, [nonTerminal .varDefineFollow]⟩
  | defineTypeFun => ⟨.defineType, [nonTerminal .funDefineFollow]⟩
  | varDefineScalar => ⟨.varDefineFollow, [terminal .semicolon]⟩
  | varDefineArray => ⟨.varDefineFollow, [terminal .lbracket, terminal .num,
      terminal .rbracket, terminal .semicolon]⟩
  | typeInt => ⟨.type, [terminal .intWord]⟩
  | typeVoid => ⟨.type, [terminal .voidWord]⟩
  | funDefineFollow => ⟨.funDefineFollow, [terminal .lparen, nonTerminal .params,
      terminal .rparen, nonTerminal .codeBlock]⟩
  | paramsList => ⟨.params, [nonTerminal .paramList]⟩
  | paramsVoid => ⟨.params, [terminal .voidWord]⟩
  | paramsEmpty => ⟨.params, []⟩
  | paramList => ⟨.paramList, [nonTerminal .param, nonTerminal .paramFollow]⟩
  | paramFollow => ⟨.paramFollow, [terminal .comma, nonTerminal .param, nonTerminal .paramFollow]⟩
  | paramFollowEmpty => ⟨.paramFollow, []⟩
  | param => ⟨.param, [terminal .intWord, terminal .ident, nonTerminal .arraySubscript]⟩
  | arraySubscript => ⟨.arraySubscript, [terminal .lbracket, terminal .rbracket]⟩
  | arraySubscriptEmpty => ⟨.arraySubscript, []⟩
  | codeBlock => ⟨.codeBlock, [terminal .lbrace, nonTerminal .localDefineList,
      nonTerminal .codeList, terminal .rbrace]⟩
  | localDefineList => ⟨.localDefineList, [nonTerminal .localVarDefine,
      nonTerminal .localDefineList]⟩
  | localDefineListEmpty => ⟨.localDefineList, []⟩
  | localVarDefine => ⟨.localVarDefine, [nonTerminal .type, terminal .ident,
      nonTerminal .varDefineFollow]⟩
  | codeList => ⟨.codeList, [nonTerminal .code, nonTerminal .codeList]⟩
  | codeListEmpty => ⟨.codeList, []⟩
  | codeNormal => ⟨.code, [nonTerminal .normalStatement]⟩
  | codeSelection => ⟨.code, [nonTerminal .selectionStatement]⟩
  | codeIteration => ⟨.code, [nonTerminal .iterationStatement]⟩
  | codeReturn => ⟨.code, [nonTerminal .returnStatement]⟩
  | normalStatementEmpty => ⟨.normalStatement, [terminal .semicolon]⟩
  | normalStatementId => ⟨.normalStatement, [terminal .ident, nonTerminal .normalStatementFollow]⟩
  | normalFollowAssign => ⟨.normalStatementFollow, [nonTerminal .varFollow, terminal .assign,
      nonTerminal .expression, terminal .semicolon]⟩
  | normalFollowCall => ⟨.normalStatementFollow, [nonTerminal .callFollow, terminal .semicolon]⟩
  | callFollow => ⟨.callFollow, [terminal .lparen, nonTerminal .args, terminal .rparen]⟩
  | selection => ⟨.selectionStatement, [terminal .ifWord, terminal .lparen,
      nonTerminal .expression, terminal .rparen, terminal .lbrace, nonTerminal .codeList,
      terminal .rbrace, nonTerminal .selectionFollow]⟩
  | selectionElse => ⟨.selectionFollow, [terminal .elseWord, terminal .lbrace,
      nonTerminal .codeList, terminal .rbrace]⟩
  | selectionEmpty => ⟨.selectionFollow, []⟩
  | iteration => ⟨.iterationStatement, [terminal .whileWord, terminal .lparen,
      nonTerminal .expression, terminal .rparen, nonTerminal .iterationFollow]⟩
  | iterationBlock => ⟨.iterationFollow, [terminal .lbrace, nonTerminal .codeList,
      terminal .rbrace]⟩
  | iterationCode => ⟨.iterationFollow, [nonTerminal .code]⟩
  | returnStatement => ⟨.returnStatement, [terminal .returnWord, nonTerminal .returnFollow]⟩
  | returnVoid => ⟨.returnFollow, [terminal .semicolon]⟩
  | returnValue => ⟨.returnFollow, [nonTerminal .expression, terminal .semicolon]⟩
  | varFollowIndex => ⟨.varFollow, [terminal .lbracket, nonTerminal .expression,
      terminal .rbracket]⟩
  | varFollowEmpty => ⟨.varFollow, []⟩
  | expression => ⟨.expression, [nonTerminal .additiveExpr, nonTerminal .expressionFollow]⟩
  | expressionFollow => ⟨.expressionFollow, [nonTerminal .relOp, nonTerminal .additiveExpr]⟩
  | expressionFollowEmpty => ⟨.expressionFollow, []⟩
  | relOpLe => ⟨.relOp, [terminal .le]⟩
  | relOpLt => ⟨.relOp, [terminal .lt]⟩
  | relOpGt => ⟨.relOp, [terminal .gt]⟩
  | relOpGe => ⟨.relOp, [terminal .ge]⟩
  | relOpEq => ⟨.relOp, [terminal .eqEq]⟩
  | relOpNe => ⟨.relOp, [terminal .notEq]⟩
  | additiveExpr => ⟨.additiveExpr, [nonTerminal .term, nonTerminal .additiveExprFollow]⟩
  | additiveFollow => ⟨.additiveExprFollow, [nonTerminal .addOp, nonTerminal .term,
      nonTerminal .additiveExprFollow]⟩
  | additiveFollowEmpty => ⟨.additiveExprFollow, []⟩
  | addOpPlus => ⟨.addOp, [terminal .plus]⟩
  | addOpMinus => ⟨.addOp, [terminal .minus]⟩
  | term => ⟨.term, [nonTerminal .factor, nonTerminal .termFollow]⟩
  | termFollow => ⟨.termFollow, [nonTerminal .mulOp, nonTerminal .factor,
      nonTerminal .termFollow]⟩
  | termFollowEmpty => ⟨.termFollow, []⟩
  | mulOpStar => ⟨.mulOp, [terminal .star]⟩
  | mulOpSlash => ⟨.mulOp, [terminal .slash]⟩
  | factorParen => ⟨.factor, [terminal .lparen, nonTerminal .expression, terminal .rparen]⟩
  | factorId => ⟨.factor, [terminal .ident, nonTerminal .idFactorFollow]⟩
  | factorNum => ⟨.factor, [terminal .num]⟩
  | idFactorVar => ⟨.idFactorFollow, [nonTerminal .varFollow]⟩
  | idFactorCall => ⟨.idFactorFollow, [terminal .lparen, nonTerminal .args, terminal .rparen]⟩
  | args => ⟨.args, [nonTerminal .argList]⟩
  | argsEmpty => ⟨.args, []⟩
  | argList => ⟨.argList, [nonTerminal .expression, nonTerminal .argListFollow]⟩
  | argListFollow => ⟨.argListFollow, [terminal .comma, nonTerminal .expression,
      nonTerminal .argListFollow]⟩
  | argListFollowEmpty => ⟨.argListFollow, []⟩

def productions : List (Production Terminal NonTerminal) :=
  all.toList.map production

end Rule

end Minuscule
