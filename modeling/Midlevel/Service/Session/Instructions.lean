import Midlevel.Service.Session.Basic

/-!
Steps that build instructions.
-/

namespace Midlevel.Service.Session

open Ir Build

instance : Argument Primitive where
  read
    | .text name =>
      match Primitive.ofName? name with
      | some p => return p
      | none => refuse
    | k => do
      let n ← readInt k
      if n < 0 ∨ 255 < n then refuse
      return .ofCode (lowByte n)

instance : Argument Encoding := ⟨fun j => return if (← readText j) = "utf16" then .utf16 else .utf8⟩

def instructionSteps : List (Text × Handler) :=
  [("int", command intLiteral ["v", "type"]),
   ("bool", command boolLiteral ["v"]),
   ("str", command stringLiteral ["text", "enc"]),
   ("builtin", command primitive ["kind", "args"]),
   ("cond_fail", command condFail ["v"]),
   ("load", command load ["v"]),
   ("project", command existentialProject ["v"]),
   ("ex_retain", command existentialRetain ["v"]),
   ("retain", command retain ["v"]),
   ("ret", command ret ["v"]),
   ("alloc", command alloc ["type"]),
   ("alloc_object", command allocObject ["type"]),
   ("store", command store ["v", "to"]),
   ("copy_addr", command copyAddr ["v", "to"]),
   ("br", command br ["block", "args"]),
   ("cond_br", command condBr ["v", "then", "then_args", "else", "else_args"]),
   ("trap", command trap []),
   ("call", command call ["fn", "args"]),
   ("apply", command apply ["v", "args"]),
   ("struct_val", command struct ["type", "args"]),
   ("tuple_val", command tuple ["args"]),
   ("extract", command structExtract ["v", "field"]),
   ("field_ptr", command structElementPtr ["v", "field"]),
   ("witness", command existentialWitness ["v", "field"]),
   ("prop_ptr", command existentialPropertyPtr ["v", "field"]),
   ("tuple_extract", command tupleExtract ["v", "index"]),
   ("tuple_ptr", command tupleElementPtr ["v", "index"]),
   ("variable", command named ["v", "name"]),
   ("box", command existentialBox ["v", "type"]),
   ("ex_release", command existentialRelease ["v", "unowned"]),
   ("release", command release ["v", "unowned"]),
   ("dealloc", command dealloc ["v", "unowned"])]

end Midlevel.Service.Session
