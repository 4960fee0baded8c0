import Midlevel.Ir.Basic

/-!
Use lists. An operand that reads a value is registered in the use list of that value and knows its
position there. Registering appends; removing moves the last entry into the gap.
-/

namespace Midlevel.Ir.Module

variable (m : Module)

def addUse (v : Value) (o : OperandId) : Module :=
  let n := (m.uses v).length
  let m := m.modifyUses (· ++ [o]) v
  { m with operands := m.operands.update o ({ · with index := some n }) }

/-- Removes an operand from the use list of `v`; none if it does not stand at its position there. -/
def removeUse? (v : Value) (o : OperandId) : Option Module :=
  match (m.operands.get o).index, (m.uses v).getLast? with
  | some i, some last =>
    if (m.uses v)[i]? = some o then
      let m := m.modifyUses (fun us => (us.set i last).dropLast) v
      let operands := (m.operands.update last ({ · with index := some i })).update o
        ({ · with index := none })
      some { m with operands }
    else none
  | _, _ => none

def register (o : OperandId) (v : Option Value) : Module :=
  let read := { m with operands := m.operands.update o ({ · with value := v }) }
  match v with
  | none => read
  | some w => read.addUse w o

def setOperand? (o : OperandId) (v : Option Value) : Option Module :=
  let old := (m.operands.get o).value
  if old = v then some m
  else
    let freed := match old with
      | none => some m
      | some w => m.removeUse? w o
    freed.map (·.register o v)

def newOperand (v : Option Value) (user : Option InstId) : OperandId × Module :=
  let o := m.operands.next
  let m := { m with operands := m.operands.push { value := none, user } }
  (o, m.register o v)

def newOperands (m : Module) (vs : List (Option Value)) (user : Option InstId) :
    List OperandId × Module :=
  match vs with
  | [] => ([], m)
  | v :: vs =>
    let (o, m) := m.newOperand v user
    let (os, m) := m.newOperands vs user
    (o :: os, m)

def isAttached (o : OperandId) : Bool :=
  (m.operands.get o).value.isSome && (m.operands.get o).index.isSome

end Midlevel.Ir.Module
