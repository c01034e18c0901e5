import Stackwright.Text.Quoted
import Stackwright.Decimal.Text
import Stackwright.Expr.Basic

/-
  Stackwright.Expr.Text — expressions as parenthesised text.

  Literals other than 32-bit integers carry their type as a suffix or show it by their
  form. Member names stand after the object they are taken from.
-/

namespace Stackwright

def Literal.text : Literal → String
  | .bool v => if v then "true" else "false"
  | .char v => Text.quotedChar v
  | .i8 v => toString v.toInt ++ "i8"
  | .i16 v => toString v.toInt ++ "i16"
  | .i32 v => toString v.toInt
  | .i64 v => toString v.toInt ++ "i64"
  | .u8 v => toString v.toNat ++ "u8"
  | .u16 v => toString v.toNat ++ "u16"
  | .u32 v => toString v.toNat ++ "u32"
  | .u64 v => toString v.toNat ++ "u64"
  | .f32 v => Decimal.literalText32 v ++ "f32"
  | .f64 v => Decimal.literalText v
  | .string v => Text.quoted v
  | .null type => "(null " ++ type.text ++ ")"

namespace Expr

def valuesText (values : CaseValues) : String :=
  " ".intercalate (values.toList.map fun v => toString v.toNat)

def paramText (p : Param) : String := "(" ++ p.name.text ++ " " ++ p.type.text ++ ")"

mutual
def text : Expr → String
  | .literal value => value.text
  | .var name => name.text
  | .assign name value => "(set! " ++ name.text ++ " " ++ value.text ++ ")"
  | .seq items => "(begin" ++ spaced items ++ ")"
  | .and items => "(and" ++ spaced items ++ ")"
  | .or items => "(or" ++ spaced items ++ ")"
  | .ite c t e => "(if " ++ c.text ++ " " ++ t.text ++ " " ++ e.text ++ ")"
  | .switch value cases fallback =>
    "(switch " ++ value.text ++ casesText cases ++ " (else " ++ fallback.text ++ "))"
  | .letIn bindings body =>
    "(let (" ++ " ".intercalate (bindingTexts bindings) ++ ") " ++ body.text ++ ")"
  | .lambda _ params body =>
    "(lambda (" ++ " ".intercalate (params.map paramText) ++ ") " ++ body.text ++ ")"
  | .invoke function args => "(invoke " ++ function.text ++ spaced args ++ ")"
  | .binary op left right => "(" ++ op.text ++ " " ++ left.text ++ " " ++ right.text ++ ")"
  | .unary op operand => "(" ++ op.text ++ " " ++ operand.text ++ ")"
  | .getField target field => "(field " ++ target.text ++ " " ++ field.text ++ ")"
  | .getStatic field => "(field " ++ field.text ++ ")"
  | .setField target field value =>
    "(set-field! " ++ target.text ++ " " ++ field.text ++ " " ++ value.text ++ ")"
  | .setStatic field value => "(set-field! " ++ field.text ++ " " ++ value.text ++ ")"
  | .new ctor args => "(new " ++ ctor.owner.text ++ spaced args ++ ")"
  | .call target method args =>
    "(call " ++ target.text ++ " " ++ method.text ++ spaced args ++ ")"
  | .callStatic method args => "(call " ++ method.text ++ spaced args ++ ")"

/-- Each expression after a blank. -/
def spaced : List Expr → String
  | [] => ""
  | e :: es => " " ++ e.text ++ spaced es

def casesText : List (CaseValues × Expr) → String
  | [] => ""
  | (values, e) :: es => " ((" ++ valuesText values ++ ") " ++ e.text ++ ")" ++ casesText es

def bindingTexts : List (Symbol × Expr) → List String
  | [] => []
  | (x, e) :: es => ("(" ++ x.text ++ " " ++ e.text ++ ")") :: bindingTexts es
end

end Expr

end Stackwright
