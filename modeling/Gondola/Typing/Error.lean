import Gondola.Failure
import Gondola.Ty

/-! What makes a program ill-typed. -/
namespace Gondola

inductive TypeError where
  | undefinedSymbol (name : String)
  | redefinition (name : String)
  | mismatch (expected actual : Ty)
  | arity (expected actual : Nat)
  | notCallable (type : Ty)
  | notIndexable (type : Ty)
  | noFields (type : Ty)
  | undefinedField (type : Ty) (field : String)
  | positionalConstruction (struct : String)
  | missingField (struct field : String)
  | unknownKeyword (label : String)
  | duplicateArgument (label : String)
  | positionalAfterKeyword
  | returnOutsideFunction
  | voidBinding (name : String)
  | assignToType (name : String)
  | undefinedType (name : String)
  | notAType (name : String)
  | typeArity (name : String) (expected actual : Nat)
  | notIterable (type : Ty)
  | notAnEnum (type : Ty)
  | undefinedCase (enum case : String)
  | duplicateCase (case : String)
  | patternArity (case : String) (expected actual : Nat)
  deriving Repr

namespace TypeError

def ticked (s : String) : String := "`" ++ s ++ "`"

def message : TypeError → String
  | undefinedSymbol n => "undefined symbol " ++ ticked n
  | redefinition n => "redefinition of " ++ ticked n ++ " in the same scope"
  | mismatch e a => "expected type " ++ e.text ++ ", but got " ++ a.text
  | arity e a =>
    "incorrect number of arguments. expected " ++ toString e ++ ", but got " ++ toString a
  | notCallable t => "type " ++ t.text ++ " is not callable"
  | notIndexable t => "type " ++ t.text ++ " can't be indexed"
  | noFields t => "type " ++ t.text ++ " has no fields"
  | undefinedField t f => "type " ++ t.text ++ " has no field " ++ ticked f
  | positionalConstruction s => "struct " ++ s ++ " must be constructed with keyword arguments only"
  | missingField s f => "missing field " ++ ticked f ++ " in construction of " ++ s
  | unknownKeyword l => "no parameter named " ++ ticked l
  | duplicateArgument l => "argument " ++ ticked l ++ " given more than once"
  | positionalAfterKeyword => "positional argument after keyword arguments"
  | returnOutsideFunction => "return outside of a function"
  | voidBinding n => "can't bind " ++ ticked n ++ " to a void value"
  | assignToType n => "can't assign to type name " ++ ticked n
  | undefinedType n => "undefined type " ++ ticked n
  | notAType n => ticked n ++ " is not a type"
  | typeArity n e a =>
    "type " ++ n ++ " takes " ++ toString e ++ " type arguments, but got " ++ toString a
  | notIterable t => "type " ++ t.text ++ " is not iterable, expected a list"
  | notAnEnum t => "can't match on type " ++ t.text ++ ", expected an enum"
  | undefinedCase e c => "enum " ++ e ++ " has no case " ++ ticked c
  | duplicateCase c => "case " ++ ticked c ++ " is matched more than once"
  | patternArity c e a =>
    "case " ++ c ++ " holds " ++ toString e ++ " values, but the pattern binds " ++ toString a

end TypeError

end Gondola
