import Midlevel.Proofs.Ir.BlockEdits
import Midlevel.Proofs.Type.Extends

/-!
Functions, and what a module has beside instructions: blocks with their parameters, functions with
their entry, globals and types. All of them only add to the view; a function that is removed takes
its blocks along, and loosens whatever else led into them.
-/

namespace Midlevel.Ir

open View List
open Function (update update_self)

open Pass (Exit)

variable {w w' : View} {b t : BlockId} {x : Block} {vs : Args} {f : FuncId} {bs : List BlockId}
  {v : Value}

namespace View

def nextBlock (w : View) : BlockId := ⟨w.blocks⟩

def nextParam (w : View) : ParamId := ⟨w.params⟩

def nextFunc (w : View) : FuncId := ⟨w.funcs⟩

def nextGlobal (w : View) : GlobalId := ⟨w.globals⟩

def addBlock (w : View) (x : Block) : View :=
  { w with block := update w.block w.nextBlock x, blocks := w.blocks + 1 }

def newParams (w : View) (n : Nat) : List ParamId := (List.range' w.params n).map Id.mk

/-- The parameter that `ps` gives an id, if it is one of the next. -/
def newParam? (w : View) (ps : List Member) (p : ParamId) : Option Member :=
  if w.params ≤ p.index then ps[p.index - w.params]? else none

def addParams (w : View) (b : BlockId) (ps : List Member) : View :=
  { w with
    param := fun p => match w.newParam? ps p with
      | some x => { name := x.name, type := x.type, block := b }
      | none => w.param p
    params := w.params + ps.length
    block := fun c => if c = b then
      { w.block c with params := (w.block c).params ++ w.newParams ps.length } else w.block c }

theorem addParams_nil (w : View) (b : BlockId) : w.addParams b [] = w := by
  ext1 <;> simp [addParams, newParams, newParam?]

theorem addParams_append_singleton (w : View) (b : BlockId) (ps : List Member) (p : Member) :
    (w.addParams b ps).addParams b [p] = w.addParams b (ps ++ [p]) := by
  ext1 <;> try rfl
  · funext c
    by_cases hc : c = b
    · simp [addParams, newParams, hc, List.range'_1_concat]
    · simp [addParams, hc]
  · funext q
    have hlast : (w.addParams b ps).newParam? [p] q =
        if q.index = w.params + ps.length then some p else none := by
      simp only [newParam?, addParams]
      grind
    have hall : w.newParam? (ps ++ [p]) q =
        if q.index = w.params + ps.length then some p else w.newParam? ps q := by
      simp only [newParam?]
      grind
    show (match (w.addParams b ps).newParam? [p] q with
      | some x => ({ name := x.name, type := x.type, block := b } : Param)
      | none => (w.addParams b ps).param q) = match w.newParam? (ps ++ [p]) q with
      | some x => { name := x.name, type := x.type, block := b }
      | none => w.param q
    rw [hlast, hall]
    by_cases hq : q.index = w.params + ps.length
    · rw [if_pos hq, if_pos hq]
    · rw [if_neg hq, if_neg hq]
      rfl
  · show w.params + ps.length + 1 = w.params + (ps ++ [p]).length
    simp [Nat.add_assoc]

theorem mem_newParams {n : Nat} {p : ParamId} : p ∈ w.newParams n ↔ w.params ≤ p.index ∧
    p.index < w.params + n := by
  unfold newParams
  rw [mem_map]
  constructor
  · rintro ⟨k, hk, rfl⟩
    exact mem_range'_1.mp hk
  · intro h
    exact ⟨p.index, mem_range'_1.mpr h, rfl⟩

theorem block_addParams_addBlock (w : View) (x : Block) (ps : List Member) :
    ((w.addBlock x).addParams w.nextBlock ps).block w.nextBlock =
      { x with params := x.params ++ w.newParams ps.length } := by
  have hnew : (w.addBlock x).block w.nextBlock = x := update_self ..
  refine (if_pos rfl).trans ?_
  rw [hnew]
  rfl

theorem block_addBlock_of_ne (w : View) (x : Block) (ps : List Member) (hb : b ≠ w.nextBlock) :
    ((w.addBlock x).addParams w.nextBlock ps).block b = w.block b := by
  show (if b = w.nextBlock then _ else update w.block w.nextBlock x b : Block) = w.block b
  rw [if_neg hb, Function.update_of_ne hb]

def define (w : View) (f : FuncId) (params : List Member) : View :=
  let b := w.nextBlock
  let entered := (w.addBlock { name := "entry", func := some f }).addParams b params
  (entered.addOpen b ((entered.block b).params.map fun p => some (.param p))).setFunc f
    ({ · with blocks := [b], defined := true })

def addFunc (w : View) (x : Func) : View :=
  { w with
    func := update w.func w.nextFunc x
    funcs := w.funcs + 1
    order := w.order ++ [w.nextFunc] }

theorem setFunc_addFunc (w : View) (x : Func) (g : Func → Func) :
    (w.addFunc x).setFunc w.nextFunc g = w.addFunc (g x) := by
  ext1 <;> try rfl
  show update (update w.func w.nextFunc x) w.nextFunc
    (g (update w.func w.nextFunc x w.nextFunc)) = _
  rw [update_self, Function.update_idem]
  rfl

def addGlobal (w : View) (x : Global) : View :=
  { w with global := update w.global w.nextGlobal x, globals := w.globals + 1 }

end View

namespace Module

variable {m m' : Module}

def pushBlock (m : Module) (x : Block) : Module := { m with blocks := m.blocks.push x }

def pushParam (m : Module) (x : Param) : Module := { m with params := m.params.push x }

def pushFunc (m : Module) (x : Func) : Module :=
  { m with funcs := m.funcs.push x, order := m.order ++ [m.funcs.next] }

def pushGlobal (m : Module) (x : Global) : Module := { m with globals := m.globals.push x }

/-! ### Blocks -/

theorem Linked.pushBlock (h : m.Linked) (hx : x.edges = []) : (m.pushBlock x).Linked :=
  h.congr (h.wired.congr (fun _ => rfl) fun _ hv => hv) h.pred h.predIsSome h.predIsNone
    (m.blocks.get_push_part_of_default Block.edges hx)

theorem view_pushBlock (hx : x.edges = []) : (m.pushBlock x).view = m.view.addBlock x.view := by
  have hedges : ∀ b, ((m.blocks.push x).get b).edges = (m.blocks.get b).edges :=
    m.blocks.get_push_part_of_default Block.edges hx
  ext1 <;> try rfl
  · funext i
    show (∀ e ∈ (m.insts.get i).targets, ∃ b, e ∈ ((m.blocks.push x).get b).edges) = _
    simp only [hedges]
    rfl
  · exact m.blocks.get_push_part x Block.view
  · funext b
    show (((m.blocks.push x).get b).edges.filter _).map _ = _
    rw [hedges]
    rfl
  · exact Array.size_push x

theorem Linked.grow (h : m.Linked) {params : Pool .param Param} {funcs : Pool .func Func}
    {globals : Pool .global Global} {order : List FuncId}
    (hparams : ∀ p, (params.get p).uses = (m.params.get p).uses)
    (hfuncs : ∀ f, (funcs.get f).uses = (m.funcs.get f).uses)
    (hglobals : ∀ g, (globals.get g).uses = (m.globals.get g).uses)
    (hp : m.params.entries.size ≤ params.entries.size)
    (hf : m.funcs.entries.size ≤ funcs.entries.size)
    (hg : m.globals.entries.size ≤ globals.entries.size) :
    { m with params, funcs, globals, order }.Linked := by
  refine h.congr (h.wired.congr (fun v => ?_) fun v hv => hv.mono .refl hp hf hg) h.pred
    h.predIsSome h.predIsNone
  cases v with
  | param p => exact hparams p
  | inst i => rfl
  | func f => exact hfuncs f
  | global g => exact hglobals g

theorem Linked.pushParam (h : m.Linked) {x : Param} (hx : x.uses = []) : (m.pushParam x).Linked :=
  h.grow (m.params.get_push_part_of_default Param.uses hx) (fun _ => rfl) (fun _ => rfl)
    (m.params.size_le_push x) .refl .refl

theorem view_pushParam (x : Param) : (m.pushParam x).view =
    { m.view with
      param := update m.view.param m.view.nextParam x.bare
      params := m.view.params + 1 } := by
  ext1 <;> try rfl
  · exact m.params.get_push_part x Param.bare
  · exact Array.size_push x

/-! ### Functions and globals -/

theorem Linked.pushFunc (h : m.Linked) {x : Func} (hx : x.uses = []) : (m.pushFunc x).Linked :=
  h.grow (fun _ => rfl) (m.funcs.get_push_part_of_default Func.uses hx) (fun _ => rfl) .refl
    (m.funcs.size_le_push x) .refl

theorem view_pushFunc (x : Func) : (m.pushFunc x).view = m.view.addFunc x.bare := by
  ext1 <;> try rfl
  · exact m.funcs.get_push_part x Func.bare
  · exact Array.size_push x

theorem Linked.pushGlobal (h : m.Linked) {x : Global} (hx : x.uses = []) :
    (m.pushGlobal x).Linked :=
  h.grow (fun _ => rfl) (fun _ => rfl)
    (m.globals.get_push_part_of_default Global.uses hx) .refl .refl
    (m.globals.size_le_push x)

theorem view_pushGlobal (x : Global) : (m.pushGlobal x).view = m.view.addGlobal x.bare := by
  ext1 <;> try rfl
  · exact m.globals.get_push_part x Global.bare
  · exact Array.size_push x

/-! ### What is neither operand nor edge -/

theorem Linked.dress (h : m.Linked) (name : Text) (types : TypeTable) (providers : List Provider)
    (order : List FuncId) (typeDecls : List TypeId) :
    { m with name, types, providers, order, typeDecls }.Linked :=
  h.congr (h.wired.congr (fun v => by cases v <;> rfl) fun v hv =>
    hv.mono .refl .refl .refl .refl) h.pred
    h.predIsSome h.predIsNone

theorem Linked.setName (h : m.Linked) (name : Text) (v : Value) :
    (m.setValueName name v).Linked := by
  cases v with
  | inst i =>
    exact h.updateInst (fun _ => ⟨rfl, rfl, rfl, rfl⟩) fun e he b hb => h.pred i e he b hb
  | func f => exact h.updateFunc f fun _ => rfl
  | param p =>
    exact h.grow (fun q => m.params.get_update_part Param.uses p q fun _ => rfl) (fun _ => rfl)
      (fun _ => rfl) (Nat.le_of_eq (Pool.size_update ..).symm) .refl .refl
  | global g =>
    exact h.grow (fun _ => rfl) (fun _ => rfl)
      (fun g' => m.globals.get_update_part Global.uses g g' fun _ => rfl) .refl .refl
      (Nat.le_of_eq (Pool.size_update ..).symm)

/-! ### The way into a function -/

theorem Adds.edgeAdded_none {os : List OperandId} (ha : m.Adds m' os vs none)
    (ht : m.blocks.Has t) :
    m.EdgeAdded (m'.pushEdge m.edges.next t ⟨some t, none, none, os⟩) m.edges.next t
      none none os := by
  have hedges : m'.edges = m.edges := skeleton_edges ha.skeleton
  have hblocks : m'.blocks = m.blocks := skeleton_blocks ha.skeleton
  have hoperands := skeleton_operands ha.skeleton
  have hblock := skeleton_instBlock ha.skeleton
  refine ⟨wired_pushEdge ha.wired _ _ _, ha.fresh, ha.has, ha.user, ha.value_of_not_mem,
    Pool.not_has_next _, ?_, ?_, hoperands, ?_, hblock⟩
  · intro e'
    show (m'.edges.push _).get e' = if e' = m.edges.next then _ else m.edges.get e'
    rw [hedges, Pool.get_push]
  · intro c
    show ((m'.blocks.update t _).get c).edges = _
    rw [hblocks, Pool.get_update _ ht]
    split <;> rfl
  · intro j
    exact skeleton_targets ha.skeleton j

end Module

namespace Build

variable {s : Builder} {E : Post Fault}
variable {Q : Post FuncId}

/-! ### Blocks -/

theorem wp_addParams {Q : Post Unit} (h : s.Linked) (hb : s.module.blocks.Has b) (ps : List Member)
    (k : s.With (s.module.view.addParams b ps) (Q ())) : wp (addParams b ps) Q E s := by
  refine wp_forM_module (fun done m => m.Linked ∧ m.view = s.module.view.addParams b done ∧
    m.blocks.Has b)
    ⟨h, (addParams_nil _ _).symm, hb⟩ ?_ fun m hm => k m hm.1 hm.2.1
  rintro done p rest - m ⟨hm, hview, hmb⟩
  have hlinked := hm.pushParam (x := { name := p.name, type := p.type, block := b }) rfl
  refine ⟨(m.pushParam _).updateBlock b fun x =>
    { x with params := x.params ++ [m.params.next] }, rfl,
    hlinked.updateBlock b fun _ => rfl, ?_, (Pool.has_update _ _ _ _).mpr hmb⟩
  rw [Module.view_updateBlock (m := m.pushParam _)
    (f := fun x => { x with params := x.params ++ [m.params.next] })
    (fun _ => rfl) (fun _ => rfl) (.inl hmb), Module.view_pushParam,
      ← addParams_append_singleton, ← hview]
  ext1 <;> try rfl
  · funext c
    rw [block_setBlock]
    rfl
  · funext q
    show update m.view.param m.view.nextParam _ q = _
    rw [Function.update_apply]
    have hnew : m.view.newParam? [p] q = if q = m.view.nextParam then some p else none := by
      obtain ⟨q⟩ := q
      simp only [newParam?, nextParam]
      grind
    show _ = match m.view.newParam? [p] q with
      | some x => ({ name := x.name, type := x.type, block := b } : Param)
      | none => m.view.param q
    rw [hnew]
    split <;> rfl

theorem wp_newBlock {Q : Post BlockId} (h : s.Linked) (name : Text) (f : FuncId) (ps : List Member)
    (k : s.With ((s.view.addBlock { name, func := some f }).addParams s.view.nextBlock ps)
      (Q s.view.nextBlock)) :
    wp (newBlock name f ps) Q E s := by
  unfold newBlock
  simp only [wp_bind]
  refine wp_addParams (s := { s with module := s.module.pushBlock { name, func := some f } })
    (h.pushBlock rfl) ((Pool.has_push _ _ _).mpr (.inr rfl)) ps fun m' hm' hview => k m' hm' ?_
  rw [hview, Module.view_pushBlock rfl]
  rfl

theorem wp_appendBlock {Q : Post BlockId} (h : s.Linked) (name : Text) (ps : List Member)
    (hE : ∀ e, E (.error e) s)
    (k : ∀ f m', s.cursor.funcIn s.module = some f → (s.module.funcs.get f).defined = true →
      m'.Linked → m'.view = ((s.view.addBlock { name, func := some f }).addParams
        s.view.nextBlock ps).setFunc f (fun x =>
        { x with blocks := x.blocks ++ [s.view.nextBlock] }) →
      Q s.view.nextBlock { s with module := m' }) :
    wp (appendBlock name ps) Q E s := by
  unfold appendBlock
  rw [wp_bind, wp_currentFunc]
  cases hf : s.cursor.funcIn s.module with
  | none => exact hE _
  | some f =>
    simp only [wp_bind, wp_ite]
    refine ⟨fun _ => hE _, fun hdefined => ?_⟩
    replace hdefined : (s.module.funcs.get f).defined = true := by simpa using hdefined
    cases ps.find? (·.type = .none) with
    | some p => exact hE _
    | none =>
      simp only [wp_bind]
      refine wp_newBlock h name f ps fun m' hm' hview => ?_
      have hhas : s.module.funcs.Has f := by
        by_contra hn
        rw [Pool.get_of_not_has hn] at hdefined
        exact absurd hdefined Bool.false_ne_true
      refine wp_setFunc hm' (fun _ => by trivial) (.inl (Module.hasFunc_of_view hview hhas))
          fun m₂ h₂ hview₂ =>
        k f m₂ hf hdefined h₂ (hview₂.trans (by rw [hview]))

/-! ### Functions and globals -/

section

variable (h : s.Linked) (name : Text)
include h

theorem wp_addFunction (type : TypeId) (hE : ∀ e, E (.error e) s)
    (k : ∀ m', s.module.types.kind type = .fn → m'.Linked →
      m'.view = s.view.addFunc { name, type, refName := name } → Q s.view.nextFunc
      { s with module := m' }) : wp (addFunction name type) Q E s := by
  unfold addFunction
  simp only [wp_bind, wp_ite]
  refine ⟨fun _ => hE _, fun hkind => ⟨fun _ => hE _, fun _ => ?_⟩⟩
  refine k (s.module.pushFunc { name, type, refName := name }) (not_not.mp hkind)
    (h.pushFunc rfl) ?_
  rw [Module.view_pushFunc]
  rfl

theorem wp_addGlobal {Q : Post GlobalId} (elem : TypeId) (hE : ∀ e, E (.error e) s)
    (k : s.With ((s.view.withTypes (s.module.types.pointer elem).2).addGlobal
        { name, type := (s.module.types.pointer elem).1, elem })
      (Q s.view.nextGlobal)) :
    wp (addGlobal name elem) Q E s := by
  unfold addGlobal
  simp only [wp_bind, wp_ite]
  refine ⟨fun _ => hE _, fun _ => ⟨fun _ => hE _, fun _ => ?_⟩⟩
  have htypes : (s.module.withTypes (s.module.types.pointer elem).2).Linked := h.dress _ _ _ _ _
  refine k ((s.module.withTypes (s.module.types.pointer elem).2).pushGlobal
    { name, type := (s.module.types.pointer elem).1, elem }) (htypes.pushGlobal rfl) ?_
  rw [Module.view_pushGlobal]
  rfl

section

variable (hE : ∀ e types, s.module.types.Extends types →
  E (.error e) { s with module := s.module.withTypes types })
  (hnew : ∀ (m' : Module) (p : Provider) proto types, p.declare? s.module.types name =
    some (proto, types) →
    m'.Linked → m'.view = (s.view.withTypes types).addFunc
      { name, type := proto.type, refName := name, visibility := proto.visibility,
        readNone := proto.readNone } →
    Q s.view.nextFunc { s with module := m' })

include hE hnew

theorem wp_declareFrom (ps : List Provider) : wp (declareFrom name ps) Q E s := by
  induction ps with
  | nil => exact hE _ s.module.types (refl _)
  | cons p ps ih =>
    unfold declareFrom
    rw [wp_bind, wp_types]
    cases hp : p.declare? s.module.types name with
    | none => exact ih
    | some r =>
      obtain ⟨proto, types⟩ := r
      simp only [wp_bind]
      have h₀ : (s.module.withTypes types).Linked := h.dress _ _ _ _ _
      refine wp_addFunction h₀ name proto.type
        (fun e => hE e types (s.module.types.extends_declare hp)) fun m₁ _ h₁ hview₁ => ?_
      refine wp_setFunc h₁ (fun _ => by trivial)
          (.inl (Module.hasFunc_of_view hview₁ (Nat.lt_succ_self _))) fun m₂ h₂ hview₂ =>
        hnew m₂ p proto types hp h₂ (hview₂.trans ?_)
      have hview₁' : m₁.view = (s.view.withTypes types).addFunc { name, type := proto.type,
                                                                  refName := name } := hview₁
      rw [hview₁']
      exact setFunc_addFunc _ _ _

theorem wp_resolve (hold : ∀ f, s.module.funcNamed? name = some f → Q f s) :
    wp (resolve name) Q E s := by
  unfold resolve
  rw [wp_bind, wp_module]
  cases hf : s.module.funcNamed? name with
  | some f => exact hold f hf
  | none => exact wp_declareFrom h name hE hnew _

end

theorem wp_newOpenEdge {Q : Post EdgeId} (ht : s.module.blocks.Has t)
    (hvs : ∀ w, some w ∈ vs → s.HasValue w)
    (k : ∀ e m', m'.Linked → m'.view = s.view.addOpen t vs → Q e { s with module := m' }) :
    wp (newEdge t none none vs) Q E s := by
  unfold newEdge
  simp only [wp_bind, wp_module, wp_modifyModule]
  have ha := Module.adds_newOperands h.wired vs none hvs
  generalize s.module.newOperands vs none = r at ha ⊢
  obtain ⟨os, m₁⟩ := r
  show Q s.module.edges.next
    { s with module := m₁.pushEdge s.module.edges.next t ⟨some t, none, none, os⟩ }
  have hadded := ha.edgeAdded_none ht
  refine k _ _ (hadded.linked h (fun i hi => absurd hi (by simp)) fun _ => rfl) ?_
  rw [hadded.view_none h rfl (Module.unlinked_pushEdge ha _ _ _)]
  exact congrArg (s.view.addOpen t) ha.values

end

theorem wp_signature {Q : Post Signature}
    (hC : ∀ c, c ≠ .corruptUses →
      (s.module.typesOf f).bind (·.signature? (s.module.funcs.get f).type) = none →
      E (.crash c) s) (k :
      ∀ sig, (s.module.typesOf f).bind (·.signature? (s.module.funcs.get f).type) = some sig →
      Q sig s) : wp (signature f) Q E s := by
  unfold signature
  rw [wp_bind, wp_module]
  cases hsig : (s.module.typesOf f).bind (·.signature? (s.module.funcs.get f).type) with
  | none => exact hC _ (by simp) hsig
  | some sig => exact k sig hsig

def entryParams (lowered : List TypeId) (names : List Text) : List Member :=
  (if lowered.length = names.length + 1 then Text.ofString "self" :: names else names).zipWith
    Member.mk lowered

theorem wp_defineBody {Q : Post Unit} (h : s.Linked) (hf : s.module.funcs.Has f) (names : List Text)
    (hE : ∀ e, ((s.module.funcs.get f).defined = true ∨ ∃ sig,
      (s.module.typesOf f).bind (·.signature? (s.module.funcs.get f).type) = some sig ∧
      names.length ≠ sig.params.length) → E (.error e) s)
    (hC : ∀ c, c ≠ .corruptUses →
      (s.module.typesOf f).bind (·.signature? (s.module.funcs.get f).type) = none →
      E (.crash c) s) (k : ∀ m' sig, (s.module.funcs.get f).defined = false →
      (s.module.typesOf f).bind (·.signature? (s.module.funcs.get f).type) = some sig →
      names.length = sig.params.length → m'.Linked → m'.view = (s.view.withTypes
        (s.module.types.loweredParams (s.module.funcs.get f).type).2).define f
        (entryParams (s.module.types.loweredParams (s.module.funcs.get f).type).1 names) →
      Q () { s with module := m' }) :
    wp (defineBody f names) Q E s := by
  unfold defineBody
  simp only [wp_bind, wp_ite]
  refine ⟨fun hdefined => hE _ (.inl hdefined), fun hdefined => wp_signature hC fun sig hsig =>
    ⟨fun hlength => hE _ (.inr ⟨sig, hsig, hlength⟩), fun hlength => ?_⟩⟩
  rw [wp_onTypes]
  generalize hlow : s.module.types.loweredParams (s.module.funcs.get f).type = low at k ⊢
  obtain ⟨lowered, types⟩ := low
  have h₀ : (s.module.withTypes types).Linked := h.dress _ _ _ _ _
  refine wp_newBlock h₀ "entry" f (entryParams lowered names) fun m₁ h₁ hview₁ => ?_
  rw [wp_block]
  refine wp_newOpenEdge h₁ (Module.hasBlock_of_view hview₁ (Nat.lt_succ_self _)) ?_
    fun e m₂ h₂ hview₂ => ?_
  · intro w hw
    obtain ⟨p, hp, hpw⟩ := mem_map.mp hw
    rw [← Option.some.inj hpw]
    have hp' : p ∈ (m₁.view.block s.view.nextBlock).params := hp
    show p.index < m₁.view.params
    rw [hview₁] at hp' ⊢
    have hnew : p ∈ (s.view.newParams (entryParams lowered names).length) := by
      have hblock := block_addParams_addBlock (s.module.withTypes types).view
        { name := "entry", func := some f } (entryParams lowered names)
      rw [show s.view.nextBlock = (s.module.withTypes types).view.nextBlock from rfl, hblock] at hp'
      exact hp'
    exact (mem_newParams.mp hnew).2
  have hf₂ : m₂.funcs.Has f := Module.hasFunc_of_view hview₂ (Module.hasFunc_of_view hview₁ hf)
  refine wp_setFunc h₂ (fun _ => by trivial) (.inl hf₂) fun m₃ h₃ hview₃ =>
    k m₃ sig (by simpa using hdefined) hsig (not_not.mp hlength) h₃ (hview₃.trans ?_)
  rw [hview₂]
  have hview₁' : m₁.view =
    ((s.view.withTypes types).addBlock { name := "entry", func := some f }).addParams
      s.view.nextBlock (entryParams lowered names) := hview₁
  show setFunc (addOpen m₁.view s.view.nextBlock
    ((m₁.view.block s.view.nextBlock).params.map fun p => some (.param p))) f _ = _
  rw [hview₁']
  rfl

end Build

/-! ### Removing functions -/

namespace View

def clearBlocks (w : View) (bs : List BlockId) : View :=
  { (w.silenceAll (w.instsOf bs)).eraseInsts (w.instsOf bs) with
    block := fun b => if b ∈ bs then { w.block b with insts := [] } else w.block b }

theorem clearBlocks_nil (w : View) : w.clearBlocks [] = w := by
  ext1 <;> simp [clearBlocks, instsOf, eraseInsts]

theorem clearBlocks_append_singleton (w : View) (bs : List BlockId) (b : BlockId) :
    (((w.clearBlocks bs).silenceAll (if b ∈ bs then [] else (w.block b).insts)).eraseInsts
      (if b ∈ bs then [] else (w.block b).insts)).setBlock b ({ · with insts := [] }) =
      w.clearBlocks (bs ++ [b]) := by
  have hmem (i) : i ∈ w.instsOf (bs ++ [b]) ↔
      i ∈ (if b ∈ bs then [] else (w.block b).insts) ∨ i ∈ w.instsOf bs := by
    unfold instsOf
    split
    · next hb =>
      simp only [flatMap_append, mem_append, flatMap_singleton, not_mem_nil, false_or,
        or_iff_left_iff_imp]
      exact fun hi => mem_flatMap.mpr ⟨b, hb, hi⟩
    · simp [or_comm]
  generalize (if b ∈ bs then [] else (w.block b).insts) = is at hmem ⊢
  have hmem' : ∀ i, (i ∈ w.instsOf (bs ++ [b])) = (i ∈ is ∨ i ∈ w.instsOf bs) := fun i =>
    propext (hmem i)
  ext1 <;> try rfl
  case inst | reads | exits | entered =>
    funext i
    by_cases hi : i ∈ is <;> by_cases hj : i ∈ w.instsOf bs <;>
      simp [clearBlocks, eraseInsts, silenceAll, setBlock, hmem', hj]
  · funext c
    by_cases hc : c = b <;> by_cases hcs : c ∈ bs <;>
      simp_all [clearBlocks, eraseInsts, silenceAll]

def orphan (w : View) (bs : List BlockId) : View :=
  { w with block := fun b => if b ∈ bs then { w.block b with func := none } else w.block b }

/-- Branches into the blocks of `bs` are loosened: what they pass does not count any more. -/
structure Loosens (w w' : View) (bs : List BlockId) : Prop where
  rest : { w' with reads := w.reads, exits := w.exits, entered := w.entered, opens := w.opens } = w
  same : ∀ i, (∀ x ∈ w.exits i, ∀ b ∈ bs, x.target ≠ some b) →
    w'.reads i = w.reads i ∧ w'.exits i = w.exits i ∧ w'.entered i = w.entered i
  reads : ∀ i, (w'.reads i).length = (w.reads i).length
  targets : ∀ i, (w'.exits i).map Exit.target = (w.exits i).map Exit.target
  opens : ∀ b, b ∉ bs → w'.opens b = w.opens b
  shut : ∀ b, w.opens b = [] → w'.opens b = []
  others : ∀ i, ∀ x ∈ w'.exits i, (∀ b ∈ bs, x.target ≠ some b) →
    ∃ y ∈ w.exits i, y.target = x.target ∧ y.args.length = x.args.length
  less : ∀ v, w'.Reads v → w.Reads v

theorem Loosens.refl (w : View) (bs : List BlockId) : w.Loosens w bs :=
  ⟨rfl, fun _ _ => ⟨rfl, rfl, rfl⟩, fun _ => rfl, fun _ => rfl, fun _ _ => rfl, fun _ h => h,
    fun _ x hx _ => ⟨x, hx, rfl, rfl⟩, fun _ h => h⟩

theorem Loosens.trans {w'' : View} (h : w.Loosens w' bs) (h' : w'.Loosens w'' bs) :
    w.Loosens w'' bs where
  rest := by
    have := congrArg (fun v : View =>
      { v with reads := w.reads, exits := w.exits, entered := w.entered, opens := w.opens }) h'.rest
    exact this.trans h.rest
  same i hi := by
    obtain ⟨hr, he, hn⟩ := h.same i hi
    obtain ⟨hr', he', hn'⟩ := h'.same i (he ▸ hi)
    exact ⟨hr'.trans hr, he'.trans he, hn'.trans hn⟩
  reads i := (h'.reads i).trans (h.reads i)
  targets i := (h'.targets i).trans (h.targets i)
  opens b hb := (h'.opens b hb).trans (h.opens b hb)
  shut b hb := h'.shut b (h.shut b hb)
  others i x hx hb := by
    obtain ⟨y, hy, htarget, hlength⟩ := h'.others i x hx hb
    obtain ⟨z, hz, htarget', hlength'⟩ := h.others i y hy (htarget ▸ hb)
    exact ⟨z, hz, htarget'.trans htarget, hlength'.trans hlength⟩
  less v hv := h.less v (h'.less v hv)

theorem Loosens.withBlock (h : w.Loosens w' bs)
    (c : BlockId → Block) : { w with block := c }.Loosens { w' with block := c } bs where
  rest := by
    have := congrArg (fun v : View => { v with block := c }) h.rest
    exact this
  same := h.same
  reads := h.reads
  targets := h.targets
  opens := h.opens
  shut := h.shut
  others := h.others
  less := h.less

end View

namespace Module

variable {m : Module}
variable {e : EdgeId}

theorem operandValue_of_dropArgs {o : OperandId} (hv : m.dropArgs e o = some v) :
    m.operandValue o = some v := by
  unfold dropArgs at hv
  split at hv
  · cases hv
  · exact hv

theorem args_of_cut {e' : EdgeId} (hv : some v ∈ ((m.cut e).edges.get e').args.map (m.dropArgs e)) :
    some v ∈ (m.edges.get e').args.map m.operandValue := by
  obtain ⟨o, ho, hov⟩ := mem_map.mp hv
  rw [args_cut] at ho
  split at ho
  · cases ho
  · exact mem_map.mpr ⟨o, ho, operandValue_of_dropArgs hov⟩

theorem view_cut_of_not_mem (h : m.Linked) (he : ∀ b, e ∉ (m.blocks.get b).edges) :
    (m.cut e).viewWith (m.dropArgs e) = m.view := by
  have hargs : (m.edges.get e).args = [] := by
    by_contra hn
    obtain ⟨b, hb⟩ := h.enters e hn
    exact he b hb
  have hdrop : m.dropArgs e = m.operandValue := by
    funext o
    unfold dropArgs
    rw [hargs, if_neg not_mem_nil]
  have hfilter (b) : (m.blocks.get b).edges.filter (· ≠ e) = (m.blocks.get b).edges :=
    filter_eq_self.mpr fun d hd => decide_eq_true fun hde => he b (hde ▸ hd)
  have hedge (d) : ((m.cut e).edges.get d).args = (m.edges.get d).args := by
    rw [args_cut]
    split
    · next hd => rw [hd, hargs]
    · rfl
  have hblock (b) : (m.cut e).blocks.get b = m.blocks.get b := by
    rw [block_cut h, hfilter]
  rw [hdrop]
  ext1 <;> try rfl
  · funext i
    refine map_congr_left fun d _ => ?_
    rw [hedge, target_cut]
  · funext i
    refine propext (forall₂_congr fun d _ => exists_congr fun b => ?_)
    rw [hblock]
  · funext b
    exact congrArg Block.view (hblock b)
  · funext b
    show ((m.cut e).openEdges b).map _ = (m.openEdges b).map _
    have hopen : (m.cut e).openEdges b = m.openEdges b := by
      unfold openEdges
      simp only [hblock, source_cut]
    rw [hopen]
    refine map_congr_left fun d _ => ?_
    rw [hedge]
  · exact m.size_cut e

theorem Linked.loosens_cut (h : m.Linked) (hb : b ∈ bs)
    (htarget : (m.edges.get e).target = some b) :
    m.view.Loosens ((m.cut e).viewWith (m.dropArgs e)) bs := by
  by_cases he : e ∈ (m.blocks.get b).edges
  swap
  · rw [view_cut_of_not_mem h fun c hc => he ?_]
    · exact .refl _ _
    · exact (Option.mem_unique htarget (h.incoming c e hc).1) ▸ hc
  exact {
  rest := by
    ext1 <;> try rfl
    · exact blockView_cut h e
    · exact m.size_cut e
  same i hi := by
    have hsource : (m.edges.get e).source ≠ some i := by
      intro hs
      have hmem := (h.incoming b e he).2 i hs
      exact hi _ (mem_map_of_mem hmem) b hb (h.incoming b e he).1
    exact ⟨map_dropArgs_operands h hsource, exits_cut h hsource, entered_cut h hsource _⟩
  reads i := by
    show ((m.insts.get i).operands.map _).length = ((m.insts.get i).operands.map _).length
    rw [length_map, length_map]
  targets i := by
    show ((m.insts.get i).targets.map _).map _ = ((m.insts.get i).targets.map _).map _
    rw [map_map, map_map]
    refine map_congr_left fun d _ => ?_
    exact target_cut e d
  opens c hc := by
    refine opens_cut h ?_
    rintro e' he' rfl
    have hin := (h.incoming c e' (mem_of_mem_filter he')).1
    obtain rfl : c = b := Option.mem_unique hin (h.incoming b e' he).1
    exact hc hb
  shut c hc := by
    show ((m.cut e).openEdges c).map _ = []
    rw [openEdges_cut h, map_eq_nil_iff.mp hc]
    rfl
  others i x hx hbs := by
    obtain ⟨e', he', rfl⟩ := mem_map.mp hx
    refine ⟨_, mem_map_of_mem he', (target_cut e e').symm, ?_⟩
    have hne : e' ≠ e := by
      rintro rfl
      exact hbs b hb ((target_cut e' e').trans htarget)
    simp only [length_map, args_cut, if_neg hne]
  less v hv := by
    rcases hv with ⟨i, hi⟩ | ⟨i, x, hx, hv⟩ | ⟨c, args, hargs, hv⟩
    · obtain ⟨o, ho, hov⟩ := mem_map.mp hi
      exact .inl ⟨i, mem_map.mpr ⟨o, ho, operandValue_of_dropArgs hov⟩⟩
    · obtain ⟨e', he', rfl⟩ := mem_map.mp hx
      exact .inr (.inl ⟨i, _, mem_map_of_mem he', args_of_cut hv⟩)
    · obtain ⟨e', he', rfl⟩ := mem_map.mp hargs
      rw [openEdges_cut h] at he'
      exact .inr (.inr ⟨c, _, mem_map_of_mem (mem_of_mem_filter he'), args_of_cut hv⟩) }

end Module

namespace Build

variable {s : Builder} {E : Post Fault} {Q : Post Unit}

section

variable (h : s.Linked)
include h

theorem wp_eraseInsts {is : List InstId} (his : ∀ i ∈ is, s.module.insts.Has i)
    (k : s.With ((s.module.view.silenceAll is).eraseInsts is) (Q ())) :
    wp (is.forM eraseInst) Q E s := by
  refine wp_forM_module (fun done m => m.Linked ∧
    m.view = (s.module.view.silenceAll done).eraseInsts done)
    ⟨h, by ext1 <;> simp [eraseInsts]⟩ ?_ fun m hm => k m hm.1 hm.2
  rintro done i rest hrest m ⟨hm, hview⟩
  unfold eraseInst
  rw [wp_bind]
  refine wp_dropAll hm i fun m₁ h₁ hview₁ => ?_
  have hi : m₁.insts.Has i :=
    Module.hasInst_of_view hview₁ (Module.hasInst_of_view hview (his i (by rw [hrest]; simp)))
  refine wp_setInst h₁ (fun _ => by constructor <;> rfl) hi (fun e he b hb => absurd hb (by simp))
      fun m₂ h₂ hview₂ =>
    ⟨m₂, rfl, h₂, hview₂.trans ?_⟩
  rw [hview₁, hview, ← silenceAll_append, ← silence_eq_silenceAll]
  ext1 <;> try rfl
  funext j
  by_cases hj : j = i
  · by_cases hd : j ∈ done <;> simp [eraseInsts, silence, hd]
  · simp [eraseInsts, silence, hj]

theorem wp_clearBlocks (bs : List BlockId)
    (hinsts : ∀ b, ∀ i ∈ (s.module.blocks.get b).insts, s.module.insts.Has i)
    (k : s.With (s.view.clearBlocks bs) (Q ())) :
    wp (bs.forM fun b => do
      (← block b).insts.forM eraseInst
      modifyBlock b ({ · with insts := [] })) Q E s := by
  refine wp_forM_module (fun done m => m.Linked ∧ m.view = s.view.clearBlocks done)
    ⟨h, (clearBlocks_nil _).symm⟩ ?_ fun m hm => k m hm.1 hm.2
  rintro done b rest - m ⟨hm, hview⟩
  simp only [wp_bind]
  have hblock : (m.blocks.get b).insts = if b ∈ done then [] else (s.view.block b).insts := by
    show (m.view.block b).insts = _
    rw [hview]
    show (if b ∈ done then { s.view.block b with insts := [] }
      else s.view.block b).insts = _
    split <;> rfl
  have hin : ∀ i ∈ (m.blocks.get b).insts, m.insts.Has i := by
    intro i hi
    rw [hblock] at hi
    split at hi
    · cases hi
    · exact Module.hasInst_of_view hview (hinsts b i hi)
  refine wp_eraseInsts hm hin fun m₁ h₁ hview₁ => ?_
  refine wp_setBlock h₁ (fun _ => by trivial) (.inr rfl) fun m₂ h₂ hview₂ =>
    ⟨m₂, rfl, h₂, hview₂.trans ?_⟩
  rw [hview₁, hview, hblock]
  exact clearBlocks_append_singleton _ _ _

theorem wp_detachEdges (hb : b ∈ bs)
    (k : ∀ m', m'.Linked → s.view.Loosens m'.view bs → m'.view.opens b = [] →
      Q () { s with module := m' }) :
    wp ((s.module.blocks.get b).edges.forM detachEdge) Q E s := by
  refine wp_forM_module (fun done m => m.Linked ∧ s.view.Loosens m.view bs ∧
      (∀ e ∈ (s.module.blocks.get b).edges, (m.edges.get e).target = some b) ∧
      ∀ e ∈ (m.blocks.get b).edges, e ∈ (s.module.blocks.get b).edges ∧ e ∉ done)
    ⟨h, .refl _ _, fun e he => (h.incoming b e he).1, fun e he => ⟨he, not_mem_nil⟩⟩ ?_ ?_
  · rintro done e rest hrest m ⟨hm, hloose, htarget, hleft⟩
    have he : (m.edges.get e).target = some b := htarget e (by rw [hrest]; simp)
    refine wp_detachEdge hm e fun m' hm' hview hskel =>
      ⟨m', rfl, hm', ?_, fun d hd => ?_, fun d hd => ?_⟩
    · rw [hview]
      exact hloose.trans (hm.loosens_cut hb he)
    · rw [Module.skeleton_edges hskel.symm, Module.target_cut]
      exact htarget d hd
    · rw [Module.skeleton_blocks hskel.symm] at hd
      obtain ⟨hd', hde⟩ := (Module.mem_edges_cut hm).mp hd
      obtain ⟨hmem, hdone⟩ := hleft d hd'
      exact ⟨hmem, by simpa [hde] using hdone⟩
  · rintro m ⟨hm, hloose, -, hleft⟩
    refine k m hm hloose (map_eq_nil_iff.mpr (filter_eq_nil_iff.mpr fun e he => ?_))
    exact absurd (hleft e he).1 (hleft e he).2

theorem wp_closeBlocks (bs : List BlockId)
    (k : ∀ m' w, m'.Linked → s.view.Loosens w bs → (∀ b ∈ bs, w.opens b = []) →
      m'.view = View.orphan w bs → Q () { s with module := m' }) :
    wp (bs.forM fun b => do
      (← block b).edges.forM detachEdge
      modifyBlock b ({ · with func := none })) Q E s := by
  refine wp_forM_module (fun done m => m.Linked ∧ ∃ w, s.view.Loosens w bs ∧
      (∀ b ∈ done, w.opens b = []) ∧ m.view = orphan w done)
    ⟨h, _, .refl _ _, by simp, ?_⟩ ?_ ?_
  · ext1 <;> simp [orphan]
  · rintro done b rest hrest m ⟨hm, w, hw, hshut, hview⟩
    simp only [wp_bind]
    have hb : b ∈ bs := by rw [hrest]; simp
    refine wp_detachEdges (s := { s with module := m }) hm hb fun m₁ h₁ hloose hnone => ?_
    have hstep : w.Loosens { m₁.view with block := w.block } bs := by
      have hsame : { m.view with block := w.block } = w := by rw [hview]; rfl
      exact hsame ▸ hloose.withBlock w.block
    refine wp_setBlock h₁ (fun _ => by trivial) (.inr rfl) fun m₂ h₂ hview₂ => ⟨m₂, rfl, h₂,
      { m₁.view with block := w.block }, hw.trans hstep, fun c hc => ?_, hview₂.trans ?_⟩
    · rcases mem_append.mp hc with hc | hc
      · exact hstep.shut c (hshut c hc)
      · rw [mem_singleton.mp hc]
        exact hnone
    · have hblock : m₁.view.block = m.view.block := (congrArg View.block hloose.rest :)
      ext1 <;> try rfl
      funext c
      rw [block_setBlock, hblock, hview]
      by_cases hc : c = b
      · by_cases hd : c ∈ done <;> simp [orphan, hd]
      · simp [orphan, hc]
  · rintro m ⟨hm, w, hw, hshut, hview⟩
    exact k m w hm hw hshut hview

theorem wp_removeFunction (hf : s.module.funcs.Has f)
    (hinsts : ∀ b, ∀ i ∈ (s.module.blocks.get b).insts, s.module.insts.Has i)
    (hE : ∀ e, E (.error e) s)
    (k : ∀ m' w, m'.Linked → (s.view.clearBlocks (s.module.funcs.get f).blocks).Loosens w
        (s.module.funcs.get f).blocks → (∀ b ∈ (s.module.funcs.get f).blocks, w.opens b = []) →
      m'.view = { ((w.orphan (s.module.funcs.get f).blocks).setFunc f
        ({ · with blocks := [], removed := true })) with order := w.order.filter (· ≠ f) } →
      Q () { s with module := m' }) :
    wp (removeFunction f) Q E s := by
  unfold removeFunction
  simp only [wp_bind, wp_ite]
  refine ⟨fun _ => hE _, fun _ => ⟨fun _ => hE _, fun _ => ?_⟩⟩
  refine wp_clearBlocks h _ hinsts fun m₁ h₁ hview₁ => ?_
  refine wp_closeBlocks h₁ _ fun m₂ w h₂ hloose hshut hview₂ => ?_
  have hfuncs : w.funcs = m₁.view.funcs := (congrArg funcs hloose.rest :)
  have hf₂ : m₂.funcs.Has f :=
    Module.hasFunc_of_view hview₂ (hfuncs ▸ Module.hasFunc_of_view hview₁ hf)
  refine wp_setFunc h₂ (fun _ => by trivial) (.inl hf₂) fun m₃ h₃ hview₃ => ?_
  refine k _ w (h₃.dress _ _ _ _ _) (hview₁ ▸ hloose) hshut ?_
  have horder : m₃.order = w.order :=
    (congrArg order (hview₃.trans (congrArg (setFunc · f _) hview₂)) :)
  show { m₃.view with order := m₃.order.filter (· ≠ f) } = _
  rw [horder, hview₃, ← hview₂]

end

end Build

end Midlevel.Ir
