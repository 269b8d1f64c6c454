import Callable.Proofs.Reference.Spelling
import Callable.Reference.Reader

/-!
The grammar of references, with the types its derivations denote.

    Type      ::= Term ('|' Term)*
    Term      ::= name | name '[' Arguments ']' | Literal '[' Values ']'
                | (Tuple|tuple) '[' '(' ')' ']'
    Arguments ::= Type (',' Type)* [',']
    Values    ::= value (',' value)* [',']

A derivation carries a bound on the brackets that are open at once. It denotes a type as it is
written: unions are neither flattened nor freed of repeated members here.
-/
namespace Callable.Reference

/-- What a name without arguments denotes. -/
inductive NameDenotes (scope : Scope) : String → TypeExpr → Prop
  | any : NameDenotes scope "Any" .any
  | none : NameDenotes scope "None" .none
  | someClass : NameDenotes scope "Type" .someClass
  | list : NameDenotes scope "List" (.builtin .list)
  | dict : NameDenotes scope "Dict" (.builtin .dict)
  | set : NameDenotes scope "Set" (.builtin .set)
  | tuple : NameDenotes scope "Tuple" (.builtin .tuple)
  | builtin (b : Builtin) : NameDenotes scope b.name (.builtin b)
  | registered {name : String} {type : TypeExpr} : scope.resolve name = some type →
      NameDenotes scope name type

/-- What a head with types in its brackets denotes: each head asks for its number of types. -/
inductive HeadDenotes : String → List TypeExpr → TypeExpr → Prop
  | list {head : String} {item : TypeExpr} : head ∈ ["List", "list"] →
      HeadDenotes head [item] (.list item)
  | set {head : String} {item : TypeExpr} : head ∈ ["Set", "set"] →
      HeadDenotes head [item] (.set item)
  | optional {type : TypeExpr} : HeadDenotes "Optional" [type] (.union [type, .none])
  | classOf {head : String} {type : TypeExpr} : head ∈ ["Type", "type"] →
      HeadDenotes head [type] (.classOf type)
  | dict {head : String} {key value : TypeExpr} : head ∈ ["Dict", "dict"] →
      HeadDenotes head [key, value] (.dict key value)
  | tuple {head : String} {items : List TypeExpr} : head ∈ ["Tuple", "tuple"] →
      HeadDenotes head items (.tuple items)
  | union {members : List TypeExpr} : HeadDenotes "Union" members (.union members)

/-- The values a literal can list; an integer has to fit sixty-four bits. -/
inductive ValueDenotes : List Token → Literal → Prop
  | int {text : String} {n : Int64} : integerOf text.toList = n.toInt →
      ValueDenotes [.number text] (.int n)
  | str (text : String) : ValueDenotes [.quoted text] (.str text)
  | yes : ValueDenotes [.name "True"] (.bool true)
  | no : ValueDenotes [.name "False"] (.bool false)
  | none : ValueDenotes [.name "None"] .none

/-- Items with commas between them, at least one; a comma may stand after the last. -/
inductive CommaList {α : Type} (Item : List Token → α → Prop) : List Token → List α → Prop
  | last {tokens : List Token} {a : α} : Item tokens a → CommaList Item tokens [a]
  | comma {tokens : List Token} {a : α} : Item tokens a → CommaList Item (tokens ++ [.comma]) [a]
  | more {tokens more : List Token} {a : α} {as : List α} : Item tokens a →
      CommaList Item more as → CommaList Item (tokens ++ .comma :: more) (a :: as)

mutual

/-- Tokens that derive from `Type` with at most `depth` brackets open at once, and their type. -/
inductive DerivesType (scope : Scope) : (depth : Nat) → List Token → TypeExpr → Prop
  | term {depth : Nat} {tokens : List Token} {type : TypeExpr} :
      DerivesTerm scope depth tokens type → DerivesType scope depth tokens type
  | union {depth : Nat} {tokens more : List Token} {type : TypeExpr} {types : List TypeExpr} :
      DerivesTerm scope depth tokens type → DerivesAlternatives scope depth more types →
      DerivesType scope depth (tokens ++ more) (.union (type :: types))

/-- Terms with a pipe before each, at least one. -/
inductive DerivesAlternatives (scope : Scope) : (depth : Nat) → List Token → List TypeExpr → Prop
  | last {depth : Nat} {tokens : List Token} {type : TypeExpr} :
      DerivesTerm scope depth tokens type → DerivesAlternatives scope depth (.pipe :: tokens) [type]
  | more {depth : Nat} {tokens more : List Token} {type : TypeExpr} {types : List TypeExpr} :
      DerivesTerm scope depth tokens type → DerivesAlternatives scope depth more types →
      DerivesAlternatives scope depth (.pipe :: (tokens ++ more)) (type :: types)

inductive DerivesTerm (scope : Scope) : (depth : Nat) → List Token → TypeExpr → Prop
  | name {depth : Nat} {name : String} {type : TypeExpr} : NameDenotes scope name type →
      DerivesTerm scope depth [.name name] type
  | form {depth : Nat} {head : String} {tokens : List Token} {types : List TypeExpr}
      {type : TypeExpr} : DerivesArguments scope depth tokens types → HeadDenotes head types type →
      DerivesTerm scope (depth + 1) (.name head :: .openBracket :: (tokens ++ [.closeBracket])) type
  | literal {depth : Nat} {tokens : List Token} {values : List Literal} :
      CommaList ValueDenotes tokens values →
      DerivesTerm scope (depth + 1)
        (.name "Literal" :: .openBracket :: (tokens ++ [.closeBracket])) (.literal values)
  | emptyTuple {depth : Nat} {head : String} : head ∈ ["Tuple", "tuple"] →
      DerivesTerm scope (depth + 1)
        [.name head, .openBracket, .openParen, .closeParen, .closeBracket] (.tuple [])

/-- A comma list of types. -/
inductive DerivesArguments (scope : Scope) : (depth : Nat) → List Token → List TypeExpr → Prop
  | last {depth : Nat} {tokens : List Token} {type : TypeExpr} :
      DerivesType scope depth tokens type → DerivesArguments scope depth tokens [type]
  | comma {depth : Nat} {tokens : List Token} {type : TypeExpr} :
      DerivesType scope depth tokens type →
      DerivesArguments scope depth (tokens ++ [.comma]) [type]
  | more {depth : Nat} {tokens more : List Token} {type : TypeExpr} {types : List TypeExpr} :
      DerivesType scope depth tokens type → DerivesArguments scope depth more types →
      DerivesArguments scope depth (tokens ++ .comma :: more) (type :: types)

end

end Callable.Reference
