import CadenceUplift.Data.Value

namespace CadenceUplift

/-- Why a value has no entry of a name. -/
inductive LookupFault where
  | noEntry (name : String)
  /-- It is no record at all. -/
  | notRecord (v : Value)
deriving Repr, Inhabited

def LookupFault.message : LookupFault → String
  | .noEntry name => Text.quotedString name
  | .notRecord (.list _) => "list indices must be integers or slices, not str"
  | .notRecord (.tuple _) => "tuple indices must be integers or slices, not str"
  | .notRecord (.octets _) => "byte indices must be integers or slices, not str"
  | .notRecord (.text _) => "string indices must be integers, not 'str'"
  | .notRecord v => "'" ++ v.kindWord ++ "' object is not subscriptable"

def Value.entry (v : Value) (name : String) : Except LookupFault Value :=
  match v with
  | .object entries =>
    match named? name entries with
    | some e => .ok e
    | none => .error (.noEntry name)
  | _ => .error (.notRecord v)

end CadenceUplift
