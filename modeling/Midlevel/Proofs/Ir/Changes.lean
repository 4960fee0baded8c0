import Midlevel.Proofs.Ir.Shape
import Mathlib.Logic.Relation

/-!
What the operations of the builder do to what a module says. Every operation is made up of the
changes that `View.Change` lists, each with what was checked before it is made; so an invariant
needs a lemma with a case for each change, and then holds after every operation.
-/

namespace Midlevel.Ir

open List
open Pass (Exit)

namespace View

variable {w w' : View}
variable {v : Value}

def lead (x : Exit) : Option BlockId × Nat := (x.target, x.args.length)

/-- `w'` differs from `w` in names, types and the values that are read, or has more of what nothing
refers to. -/
structure Alike (w w' : View) : Prop where
  inst : ∀ i, (w'.inst i).block = (w.inst i).block ∧ (w'.inst i).op = (w.inst i).op ∧
    (w'.inst i).erased = (w.inst i).erased := by exact fun _ => ⟨rfl, rfl, rfl⟩
  block : w'.block = w.block := by rfl
  param : ∀ p, (w'.param p).block = (w.param p).block := by intro; rfl
  func : ∀ f, (w'.func f).blocks = (w.func f).blocks ∧
      (w'.func f).defined = (w.func f).defined := by
    exact fun _ => ⟨rfl, rfl⟩
  reads : ∀ i, (w'.reads i).length = (w.reads i).length := by intro; rfl
  exits : ∀ i, (w'.exits i).map lead = (w.exits i).map lead := by intro; rfl
  entered : w'.entered = w.entered := by rfl
  opens : ∀ b, (w'.opens b).map length = (w.opens b).map length := by intro; rfl
  order : ∀ f ∈ w'.order, f ∈ w.order := by exact fun _ => id
  has : ∀ v, w.Has v → w'.Has v := by exact fun v hv => by cases v <;> exact hv
  blocks : w'.blocks = w.blocks := by rfl

/-- An instruction with opcode `op` may go into block `b`, before that instruction or at the end. -/
structure Admits (w : View) (op : Opcode) (b : BlockId) (before : Option InstId) : Prop where
  made : b.index < w.blocks
  func : (w.block b).func ≠ none
  within : ∀ i, before = some i → (w.inst i).block = some b ∧ op.isTerminator = false
  atEnd : before = none → ∀ i, (w.block b).insts.getLast? = some i →
    (w.inst i).op.isTerminator = false

/-- A change that leaves every instruction in its block and every block in its function. -/
inductive Growth : View → View → Prop
  | alike {w w' : View} (h : w.Alike w') : Growth w w'
  | emit {w : View} {x : Inst} {vs : Args} {exits : List Exit} (hu : w.Unused)
    (hx : Emittable x vs exits)
    (hexits : ∀ y ∈ exits, ∀ t, y.target = some t → t.index < w.blocks ∧
      y.args.length = (w.block t).params.length)
    {b : BlockId} {before : Option InstId} (hb : w.Admits x.op b before) :
    Growth w (w.emit x vs exits b before)
  | place {w : View} {i : InstId} (hi : (w.inst i).block = none)
    (herased : (w.inst i).erased = false)
    {b : BlockId} {before : Option InstId} (hb : w.Admits (w.inst i).op b before) :
    Growth w (w.place i b before)
  | addBlock {w : View} (hu : w.Unused) (name : Text) {f : FuncId} (hf : (w.func f).defined = true)
    (ps : List Member) :
      Growth w (((w.addBlock { name, func := some f }).addParams w.nextBlock ps).setFunc f
      fun x => { x with blocks := x.blocks ++ [w.nextBlock] })
  -- The entry of a function stays.
  | permute {w : View} {f : FuncId} {g : Func → Func}
    (hg : (g (w.func f)).blocks.Perm (w.func f).blocks)
    (hhead : (g (w.func f)).blocks.head? = (w.func f).blocks.head?)
    (hdefined : (g (w.func f)).defined = (w.func f).defined) : Growth w (w.setFunc f g)
  | addFunc {w : View} (hu : w.Unused) {x : Func} (hx : x.blocks = []) : Growth w (w.addFunc x)
  | define {w : View} (hu : w.Unused) {f : FuncId} (hf : (w.func f).defined = false)
    (ps : List Member) :
    Growth w (w.define f ps)

inductive Change : View → View → Prop
  | growth {w w' : View} (h : w.Growth w') : Change w w'
  | discard (w : View) (i : InstId) : Change w (w.discard i)
  | unlink (w : View) (i : InstId) : Change w (w.unlink i)
  | eraseBlocks {w : View} {bs : List BlockId}
    (hbs : ∀ b ∈ bs, ∀ f, (w.func f).blocks.head? ≠ some b) :
    Change w (w.eraseBlocks bs)
  | merge {w : View} {pred succ : BlockId} {t : InstId} (args : List (Option Value))
    (hpred : (w.block pred).func ≠ none) (ht : (w.block pred).insts.getLast? = some t)
    (hop : (w.inst t).op.isTerminator = true) (hsucc : ∀ f, (w.func f).blocks.head? ≠ some succ) :
    Change w (w.merge pred succ t args)
  | removeFunc {w v : View} {f : FuncId}
    (hloose : (w.clearBlocks (w.func f).blocks).Loosens v (w.func f).blocks)
    (hshut : ∀ b ∈ (w.func f).blocks, v.opens b = []) :
    Change w { ((v.orphan (w.func f).blocks).setFunc f
        ({ · with blocks := [], removed := true })) with
      order := v.order.filter (· ≠ f) }

abbrev Changes : View → View → Prop := Relation.ReflTransGen Change

abbrev Growths : View → View → Prop := Relation.ReflTransGen Growth

theorem Change.changes (h : w.Change w') : w.Changes w' := .single h

theorem Growth.growths (h : w.Growth w') : w.Growths w' := .single h

theorem Growths.changes (h : w.Growths w') : w.Changes w' := h.lift id fun _ _ => .growth

theorem Growth.changes (h : w.Growth w') : w.Changes w' := h.growths.changes

/-! ### Views that are alike -/

theorem Alike.withTypes (w : View) (types : TypeTable) : w.Alike (w.withTypes types) := {}

theorem Alike.mapValues (w : View) (f : Option Value → Option Value) : w.Alike (w.mapValues f) where
  reads _ := length_map ..
  exits i := by
    show ((w.exits i).map _).map lead = (w.exits i).map lead
    rw [map_map]
    exact map_congr_left fun x _ => congrArg (Prod.mk x.target) (length_map ..)
  opens b := by
    show ((w.opens b).map _).map length = (w.opens b).map length
    rw [map_map]
    exact map_congr_left fun _ _ => length_map ..

theorem Alike.shape (h : w.Alike w') (hs : w.Shape) : w'.Shape := by
  have hparams : w.params ≤ w'.params := by
    by_contra hlt
    exact Nat.lt_irrefl _ (h.has (.param ⟨w'.params⟩) (Nat.lt_of_not_le hlt))
  have hfuncs : w.funcs ≤ w'.funcs := by
    by_contra hlt
    exact Nat.lt_irrefl _ (h.has (.func ⟨w'.funcs⟩) (Nat.lt_of_not_le hlt))
  refine hs.congr h.inst h.block h.param h.func hparams h.reads (fun i => ?_) h.order hfuncs
  simpa using congrArg length (h.exits i)

/-! ### What every change keeps -/

theorem has_emit {x : Inst} {vs : Args} {exits : List Exit} {b : BlockId}
    {before : Option InstId} (h : w.Has v) : (w.emit x vs exits b before).Has v :=
  h.mono (Nat.le_succ _) Nat.le.refl Nat.le.refl Nat.le.refl

theorem Growth.has (h : w.Growth w') (hv : w.Has v) : w'.Has v := by
  cases h with
  | alike h => exact h.has v hv
  | emit => exact has_emit hv
  | addBlock | define => exact hv.mono Nat.le.refl (Nat.le_add_right ..) Nat.le.refl Nat.le.refl
  | addFunc => exact hv.mono Nat.le.refl Nat.le.refl (Nat.le_succ _) Nat.le.refl
  | place | permute => cases v <;> exact hv

theorem Change.has (h : w.Change w') (hv : w.Has v) : w'.Has v := by
  cases h with
  | growth h => exact h.has hv
  | discard i => exact (has_discard _ i v).mpr hv
  | removeFunc hloose =>
    have := hloose.has (v := v) (by cases v <;> exact hv)
    cases v <;> exact this
  | @merge pred succ t args =>
    have := (has_discard _ t v).mpr hv
    cases v <;> exact this
  | unlink | eraseBlocks => cases v <;> exact hv

theorem Growth.shape (h : w.Growth w') (hs : w.Shape) : w'.Shape := by
  cases h with
  | alike h => exact h.shape hs
  | @emit _ _ _ hu hx _ b before _ => exact hs.emit hu.inst hx b before
  | @place _ hi herased b before _ => exact hs.place hi herased b before
  | addBlock hu name hf ps => exact hs.addBlock hu name _ ps rfl hf
  | permute hg _ hdefined => exact hs.permute _ hg hdefined
  | addFunc hu hx => exact hs.addFunc hu hx
  | define hu hf ps => exact hs.define hu hf ps

theorem Change.shape (h : w.Change w') (hs : w.Shape) : w'.Shape := by
  cases h with
  | growth h => exact h.shape hs
  | discard i => exact hs.discard i
  | unlink i => exact hs.unlink i
  | eraseBlocks _ => exact hs.eraseBlocks _
  | @merge pred succ t args _ _ _ _ => exact hs.merge pred succ t args
  | @removeFunc v f hloose _ =>
    have hfunc : v.func = w.func := (congrArg View.func hloose.rest :)
    have horphan := (hloose.shape (hs.clearBlocks _)).orphan f
      (g := ({ · with blocks := [], removed := true })) rfl
    rw [hfunc] at horphan
    exact horphan.congr (fun _ => ⟨rfl, rfl, rfl⟩) rfl (fun _ => rfl) (fun _ => ⟨rfl, rfl⟩) .refl
      (fun _ => rfl) (fun _ => rfl) (fun _ hg => (mem_filter.mp hg).1) .refl

theorem Changes.induct {P : View → Prop} (hP : ∀ {w w' : View}, w.Shape → w.Change w' → P w → P w')
    (h : w.Changes w') (hs : w.Shape) (hw : P w) : w'.Shape ∧ P w' := by
  induction h with
  | refl => exact ⟨hs, hw⟩
  | tail _ h ih => exact ⟨h.shape ih.1, hP ih.1 h ih.2⟩

theorem Changes.shape (h : w.Changes w') (hs : w.Shape) : w'.Shape :=
  (h.induct (fun _ _ _ => trivial) hs trivial).1

theorem Changes.has (h : w.Changes w') (hv : w.Has v) : w'.Has v := by
  induction h with
  | refl => exact hv
  | tail _ h ih => exact h.has ih

end View

end Midlevel.Ir
