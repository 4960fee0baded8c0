import Midlevel.Proofs.Lowering.Boxes

/-!
The encoding of a literal is chosen for its text as it is written, and the text is composed
afterwards. So the encoding fits what is stored but where composing leaves ASCII of a text
that was not.
-/

namespace Midlevel.Lowering

open Ir Midlevel.Tree Build

variable {s : Vars} {e : Expr} {env : Env} {σ τ : Site} {a : Accessor}

def Lower.Returns {α : Type} (x : Lower α) (env : Env) (σ : Site) (a : α) (τ : Site) : Prop :=
  (x.run env).run.run σ = (.ok a, τ)

theorem encodingOf_eq_utf8 {t : Text} : encodingOf t = .utf8 ↔ t.isAscii = true := by
  unfold encodingOf
  split <;> simp [*]

theorem isAscii_toNfc {t : Text} (h : t.isAscii = true) : t.toNfc.isAscii = true :=
  by rwa [Text.toNfc, if_pos h]

/-- What an instruction is made of is what it was asked to be, whether or not its module is well
formed. -/
theorem wp_emit_core (x : Inst) (vs : Args) (t : Builder) : wp (Build.emit x vs) (fun i u =>
    i = t.module.insts.next ∧ (u.module.insts.get i).core = x.core) (fun _ _ => True) t := by
  unfold Build.emit newInst attach
  rw [wp_bind]
  refine wp_checkAttach (fun _ _ => trivial) fun b _ => ?_
  simp only [wp_bind, Build.wp_module, wp_modifyModule, wp_modifyGet, wp_pure, true_and]
  generalize hm : ({ t.module with insts := t.module.insts.push x } : Ir.Module) = m
  have hnew : m.insts.get t.module.insts.next = x := by
    rw [← hm]
    exact (Pool.get_push _ _ _).trans (if_pos rfl)
  have hcore := (outline_newOperands m vs (some t.module.insts.next)).core_eq t.module.insts.next
  rw [hnew] at hcore
  generalize (m.newOperands vs (some t.module.insts.next)).1 = os
  generalize (m.newOperands vs (some t.module.insts.next)).2 = m' at hcore ⊢
  rw [← hcore]
  refine Eq.trans (Pool.get_update_part (m'.insts.update _ ({ · with operands := os }))
    Inst.core _ _ ?_)
    (Pool.get_update_part m'.insts Inst.core _ _ ?_)
  · exact fun _ => rfl
  · exact fun _ => rfl

theorem wp_accessorFor (v : Value) (temporary : Bool) {Q : Accessor → Site → Prop}
    {E : Fault → Site → Prop}
    (h : ∀ a, Q a σ) : wp ((accessorFor v temporary).run env) Q E σ := by
  show wp ((if σ.module.types.isRefCounted (σ.module.valueType v) = true then
      pure (Accessor.object v temporary)
    else if σ.module.types.kind (σ.module.valueType v) = .concept then
      pure (Accessor.box v temporary)
    else pure (Accessor.value v temporary) : Lower Accessor).run env) Q E σ
  split
  · exact h _
  · split <;> exact h _

theorem wp_emitExpr_string (hkind : e.kind = .string) : wp ((emitExpr s e).run env) (fun _ τ =>
    (τ.module.insts.get σ.module.insts.next).op = .stringLiteral ∧
    (τ.module.insts.get σ.module.insts.next).payload =
      { text := e.text.toNfc, encoding := encodingOf e.text }) (fun _ _ => True) σ := by
  obtain ⟨code, _, _, _, text, _, _, _, _, _⟩ := e
  unfold emitExpr
  rw [show ExprKind.ofCode code = .string from hkind]
  refine (wp_bind ((Lower.build (Build.stringLiteral text (encodingOf text))).run env) _).mpr ?_
  refine (Lower.wp_build _).mpr (wp_mono (wp_emit_core ..) ?_ fun _ _ _ => trivial)
  rintro i b ⟨rfl, hcore⟩
  exact wp_accessorFor _ _ fun _ => ⟨(congrArg Inst.op hcore :), (congrArg Inst.payload hcore :)⟩

/-- A literal is stored composed, in the encoding of its text before that. -/
theorem literals_encoded (hkind : e.kind = .string) (h : (emitExpr s e).Returns env σ a τ) :
    let x := τ.module.insts.get σ.module.insts.next
    x.op = .stringLiteral ∧ x.payload.text = e.text.toNfc ∧
      (x.payload.encoding = .utf8 ↔ e.text.isAscii = true) ∧
      ((x.payload.encoding = .utf8 ↔ x.payload.text.isAscii = true) ↔
        (e.text.toNfc.isAscii = true → e.text.isAscii = true)) := by
  intro x
  obtain ⟨hop, hpayload⟩ := (wp_iff_of_ok h).mp (wp_emitExpr_string hkind)
  rw [hpayload, encodingOf_eq_utf8]
  exact ⟨hop, rfl, .rfl, fun h => h.mpr, fun h => ⟨isAscii_toNfc, h⟩⟩

/-- A site in a function of a module with a heap struct and its method. -/
def objectSite : Site :=
  let start : Build Unit := do
    let types : List TypeDecl :=
      [{ name := "S", heap := true, methods := [{ name := "run", symbol := "S_run" }] }]
    declareTypes types
    let _ ← declareFunctions { types }
    let _ ← buildFunction "f" (← onTypes (·.freeFunction [] .void)) []
  { builder := (start.run.run { module := blank "m" }).2 }

theorem accent_encoded : ∃ a τ, (emitExpr [] (.stringLit "é")).Returns default objectSite a τ ∧
    (τ.module.insts.get objectSite.module.insts.next).payload.encoding ≠ .utf8 := by
  have hok : checked (((emitExpr [] (.stringLit "é")).run default).run.run objectSite).1
      (fun _ => true) = true := by
    decide +kernel
  obtain ⟨a, ha⟩ := exists_run_of_checked hok
  obtain ⟨-, -, hencoding, -⟩ := literals_encoded rfl ha
  exact ⟨a, _, ha, fun h => absurd (hencoding.mp h) (by decide)⟩

end Midlevel.Lowering
