import Midlevel.Cache
import Midlevel.Diagnostic
import Midlevel.Layout.Basic
import Midlevel.Pass.Basic
import Midlevel.Service.Answer
import Midlevel.Service.Request
import Midlevel.Trace.Basic
import Midlevel.Tree.Build
import Midlevel.Version

/-!
Requests about names: what symbols, kinds and settings are called, and what their names stand for.
-/

namespace Midlevel.Service.Names

open Ir

/-! ### Symbols -/

def mangle (j : Json) : Read Json := do
  return .object [("name", Symbol.mangle (← j.get "name") (← j.get "params"))]

def primitiveFields (p : Primitive) : Fields :=
  [("operands", p.operands), ("effects", p.hasEffects)]

def primitive (j : Json) : Read Json := do
  let found := Primitive.ofName? (← j.get "name")
  let p := found.getD (.ofCode 0)
  return record [("found", found.isSome), ("kind", p.code), ("name", p.name)] (primitiveFields p)

def ofPrototype (t : TypeTable) (p : Prototype) : Json :=
  .object [("type", t.label p.type), ("vis", p.visibility.name), ("readnone", p.readNone),
    ("noreturn", .bool false)]

def declared (p : Provider) (key name : Text) (t : TypeTable) : Fields × TypeTable :=
  match p.declare? t name with
  | some (proto, t) => ([(key, ofPrototype t proto)], t)
  | none => ([], t)

def libraryOperator (j : Json) : Read Json := do
  let name : Text ← j.get "name"
  let found := LibraryOperator.named? name
  let op := found.getD { name := [], operator := [], primitive := .ofCode 0 }
  let (library, types) := declared .library "stdlib" name .initial
  let (runtime, _) := declared .objectRuntime "runtime" name types
  return record [("found", found.isSome), ("name", op.name), ("operator", op.operator),
    ("builtin", op.primitive.name), ("checked", op.checked),
    ("bool_operands", op.boolOperands), ("predicate", op.predicate)] (library ++ runtime)

/-! ### Kinds -/

def ofCode (c : Code) : Fields :=
  [("text", c.text), ("id", c.id), ("title", c.title)]

def ofLevel (l : Trace.Level) : Fields :=
  [("text", l.name), ("emits", .list ((List.range 6).map fun n => .bool (l.records ⟨n.toUInt8⟩)))]

def layoutError (n : UInt8) (label : Text) (cycle : List Text) : LayoutError :=
  match n with
  | 1 => .recursive label cycle
  | 2 => .unsized label
  | 3 => .overflow label "inner"
  | _ => .other n label

def named (t : Text) : Fields := [("text", t)]

def kinds (n : UInt8) : List (Text × Fields) :=
  [("opcode", ("text", (Opcode.ofCode n).name) :: [("terminator", (Opcode.ofCode n).isTerminator)]),
   ("builtin", named (Primitive.ofCode n).name ++ primitiveFields (.ofCode n)),
   ("type_kind", named (TypeKind.ofCode n).name),
   ("conv", named (CallConv.ofCode n).name),
   ("visibility", named (Visibility.ofCode n).name),
   ("inline", named (Inlining.ofCode n).name),
   ("encoding", named (Encoding.ofCode n).name),
   ("stmt", named (Tree.StmtKind.ofCode n).name),
   ("expr", named (Tree.ExprKind.ofCode n).name),
   ("opt_level", named (Pass.Level.mk n).name),
   ("severity", named (Severity.mk n).name),
   ("trace_kind", named (Trace.Kind.ofCode n).name),
   ("trace_scope", named (Trace.Scope.mk n).name),
   ("trace_level", ofLevel (.ofCode n)),
   ("trace_mode", named (Trace.Mode.ofCode n).name)]

def kind (j : Json) : Read Json := do
  let what : Text ← j.get "what"
  let n : Int ← j.get "n"
  if what = "code" then return .object (ofCode ⟨(n % 65536).toNat.toUInt16⟩)
  if what = "layout_error" then
    let e := layoutError (lowByte n) (← j.get "label") (← j.get "cycle")
    return .object (named e.message)
  match (kinds (lowByte n)).lookup what with
  | some fields => return .object fields
  | none => unreadable

/-! ### Settings -/

def ofSetting {α : Type} (parsed : Except Text α) (fields : α → Fields) : Json :=
  match parsed with
  | .ok a => .object (fields a)
  | .error reason => ofReason reason

def valued (code : UInt8) (name : Text) : Fields := [("value", code.toNat), ("name", name)]

def setting (j : Json) : Read Json := do
  let what : Text ← j.get "what"
  let text : Text ← j.get "text"
  if what = "opt_level" then
    return ofSetting (Pass.Level.parse text) fun l => valued l.code l.name
  else if what = "trace_level" then
    return ofSetting (Trace.Level.parse text) fun l => valued l.code l.name
  else if what = "trace_mode" then
    return ofSetting (Trace.Mode.parse text) fun m => valued m.code m.name
  else if what = "trace_format" then
    return ofSetting (Trace.Format.parse text) fun f => [("value", f.code.toNat)]
  else if what = "target" then
    return ofSetting (Target.parse text) fun t =>
      [("triple", t.triple), ("ptr_size", t.pointerSize), ("ptr_align", t.pointerAlign)]
  else if what = "tast_type" then
    let t := Tree.TypeRef.builtin text
    return .object [("name", t.name), ("text", t.text)]
  else unreadable

def version (j : Json) : Read Json := do
  let info : BuildInfo :=
    { version := ← j.get "version", commit := ← j.get "commit", date := ← j.get "date",
      compiler := ← j.get "go" }
  let coloured : Bool ← j.get "color"
  return .object [("text", info.text), ("colored", info.colouredVersion coloured)]

/-! ### Counts -/

instance : Readable Pass.Stats where
  read j := do
    match (← Readable.read j : List Int) with
    | inlined :: insts :: blocks :: merged :: folded :: funcs :: _ =>
      return { inlined, insts, blocks, merged, folded, funcs }
    | _ => unreadable

def totals (sum : Pass.Stats) : List Pass.Stats → List Pass.Stats
  | [] => []
  | s :: ss => sum.add s :: totals (sum.add s) ss

def stats (j : Json) : Read Json := do
  return .object [("totals", ofTexts ((totals {} (← j.get "add")).map (·.text)))]

end Midlevel.Service.Names
