/-!
The terminals of C-minus. All but identifiers and numbers have one spelling; messages show a spelling
in quotes and the two classes by name. The order of declaration is the order in which sets and tables
list them.
-/

namespace Minuscule

inductive Terminal where
  | elseWord | ifWord | intWord | returnWord | voidWord | whileWord
  | plus | minus | star | slash
  | gt | ge | lt | le | eqEq | notEq
  | assign
  | semicolon | comma | lparen | rparen | lbracket | rbracket | lbrace | rbrace
  | ident | num
  deriving DecidableEq, Ord, Repr

namespace Terminal

def all : List Terminal :=
  [elseWord, ifWord, intWord, returnWord, voidWord, whileWord,
    plus, minus, star, slash,
    gt, ge, lt, le, eqEq, notEq,
    assign,
    semicolon, comma, lparen, rparen, lbracket, rbracket, lbrace, rbrace,
    ident, num]

def spelling? : Terminal → Option String
  | elseWord => "else"
  | ifWord => "if"
  | intWord => "int"
  | returnWord => "return"
  | voidWord => "void"
  | whileWord => "while"
  | plus => "+"
  | minus => "-"
  | star => "*"
  | slash => "/"
  | gt => ">"
  | ge => ">="
  | lt => "<"
  | le => "<="
  | eqEq => "=="
  | notEq => "!="
  | assign => "="
  | semicolon => ";"
  | comma => ","
  | lparen => "("
  | rparen => ")"
  | lbracket => "["
  | rbracket => "]"
  | lbrace => "\x7b"
  | rbrace => "\x7d"
  | ident | num => none

def text (terminal : Terminal) : String :=
  match terminal.spelling? with
  | some spelling => s!"'{spelling}'"
  | none => if terminal = num then "number" else "identifier"

instance : ToString Terminal := ⟨text⟩

/-- A word is a keyword or else an identifier. -/
def ofWord (word : String) : Terminal :=
  match word with
  | "else" => elseWord
  | "if" => ifWord
  | "int" => intWord
  | "return" => returnWord
  | "void" => voidWord
  | "while" => whileWord
  | _ => ident

instance : Std.TransOrd Terminal :=
  inferInstanceAs (Std.TransCmp (compareOn Terminal.ctorIdx))

instance : Std.LawfulEqOrd Terminal where
  compare_self {a} := @Std.ReflCmp.compare_self Nat compare _ a.ctorIdx
  eq_of_compare {a b} same := by
    have index : a.ctorIdx = b.ctorIdx := @Std.LawfulEqCmp.eq_of_compare Nat compare _ _ _ same
    rw [← ofNat_ctorIdx a, index, ofNat_ctorIdx]

end Terminal

end Minuscule
