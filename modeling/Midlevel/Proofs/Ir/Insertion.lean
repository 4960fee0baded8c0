import Midlevel.Proofs.Ir.Built
import Midlevel.Proofs.Ir.Verified

/-!
Code that is put before an instruction, and instructions that give way to such code.

`View.Inserts` says that some lines were put before one instruction and that nothing else changed
but the type table; it composes, so code that is built line by line has its lines in order. An
expansion ends with the instruction handing its uses to the last line and leaving: `View.Expands`.
-/

namespace Midlevel.Ir

open Midlevel.Flow View Midlevel.Ir.Module List Option
open Pass (Exit)

variable {i : InstId} {l : Flow.Line} {v : Value} {s : Builder} {E : Post Fault}

namespace View

variable {start : Nat}

/-- The instruction `i` stands in block `b`, between `pre` and `post`. -/
structure Stands (w : View) (b : BlockId) (pre : List InstId) (i : InstId)
    (post : List InstId) : Prop where
  insts : (w.block b).insts = pre ++ i :: post
  block : (w.inst i).block = some b
  pre : i ∉ pre
  post : i ∉ post

theorem Shape.stands {w : View} (h : w.Shape) {b : BlockId} (hi : i ∈ (w.block b).insts) :
    ∃ pre post, w.Stands b pre i post := by
  obtain ⟨pre, post, hsplit⟩ := append_of_mem hi
  have hnodup := h.insts.nodup b
  rw [hsplit] at hnodup
  obtain ⟨-, hpost, hdisjoint⟩ := nodup_append.mp hnodup
  exact ⟨pre, post, hsplit, h.insts.placed i b hi, fun hpre => hdisjoint i hpre i mem_cons_self rfl,
    (nodup_cons.mp hpost).1⟩

def Numbered (start : Nat) (ls : List Flow.Line) : Prop :=
  ∀ k l, ls[k]? = some l → l.id.index = start + k

/-- The lines `ls` were put before `i`, which stands between `pre` and `post`. -/
structure Inserts (w w' : View) (b : BlockId) (pre : List InstId) (i : InstId) (post : List InstId)
    (ls : List Flow.Line) :
    Prop where
  size : w'.insts = w.insts + ls.length
  ids : Numbered w.insts ls
  shows : ∀ l ∈ ls, w'.line l.id = l ∧ (w'.inst l.id).block = some b ∧
    (w'.inst l.id).erased = false ∧
    l.op.isTerminator = false ∧ l.exits = [] ∧ w'.entered l.id
  inst : ∀ j, j ∉ ls.map (·.id) → w'.inst j = w.inst j
  reads : ∀ j, j ∉ ls.map (·.id) → w'.reads j = w.reads j
  exits : ∀ j, j ∉ ls.map (·.id) → w'.exits j = w.exits j
  entered : ∀ j, j ∉ ls.map (·.id) → w'.entered j = w.entered j
  block : ∀ c, w'.block c = if c = b then { w.block c with insts := pre ++ ls.map (·.id) ++ i ::
                                                             post } else w.block c
  types : w.types.Extends w'.types
  rest : { w' with
    inst := w.inst, reads := w.reads, exits := w.exits, entered := w.entered, block := w.block,
      insts := w.insts
    types := w.types } = w

variable {w w' w'' : View} {b : BlockId} {pre post : List InstId} {j : InstId}
  {ls ls' : List Flow.Line}

theorem Numbered.lt (h : Numbered start ls) (hj : j ∈ ls.map (·.id)) :
    start ≤ j.index ∧ j.index < start + ls.length := by
  obtain ⟨l, hl, rfl⟩ := mem_map.mp hj
  obtain ⟨k, hk, rfl⟩ := mem_iff_getElem.mp hl
  rw [h k _ (List.getElem?_eq_getElem hk)]
  omega

theorem Numbered.not_mem (h : Numbered start ls) (hj : j.index < start) : j ∉ ls.map (·.id) :=
  fun hmem => absurd (h.lt hmem).1 (by omega)

theorem Numbered.append (h : Numbered start ls) (h' : Numbered (start + ls.length) ls') :
    Numbered start (ls ++ ls') := by
  intro k l hk
  rw [List.getElem?_append] at hk
  split at hk
  · exact h k l hk
  · rw [h' _ l hk]
    omega

theorem line_congr (hinst : w'.inst j = w.inst j) (hreads : w'.reads j = w.reads j)
    (hexits : w'.exits j = w.exits j) :
    w'.line j = w.line j := by
  unfold line
  rw [hinst, hreads, hexits]

theorem Inserts.refl (h : w.Stands b pre i post) : w.Inserts w b pre i post [] where
  size := rfl
  ids k l hk := by simp at hk
  shows l hl := absurd hl not_mem_nil
  inst _ _ := rfl
  reads _ _ := rfl
  exits _ _ := rfl
  entered _ _ := rfl
  block c := by
    split
    · next hc =>
      subst hc
      rw [map_nil, append_nil, ← h.insts]
    · rfl
  types := .rfl
  rest := rfl

section

variable (h : w.Inserts w' b pre i post ls)
include h

theorem Inserts.trans
    (h' : w'.Inserts w'' b (pre ++ ls.map (·.id)) i post ls') :
    w.Inserts w'' b pre i post (ls ++ ls') := by
  have hids' : Numbered (w.insts + ls.length) ls' := h.size ▸ h'.ids
  have hold {l : Flow.Line} (hl : l ∈ ls) : l.id ∉ ls'.map (·.id) :=
    hids'.not_mem (h.ids.lt (mem_map_of_mem hl)).2
  have hsplit {j : InstId} (hj : j ∉ (ls ++ ls').map (·.id)) : j ∉ ls.map (·.id) ∧
      j ∉ ls'.map (·.id) := by
    rw [map_append, mem_append, not_or] at hj
    exact hj
  refine ⟨?_, h.ids.append hids', fun l hl => ?_, fun j hj => ?_, fun j hj => ?_, fun j hj => ?_,
    fun j hj => ?_,
    fun c => ?_, h.types.trans h'.types, ?_⟩
  · rw [h'.size, h.size, length_append, Nat.add_assoc]
  · rcases mem_append.mp hl with hl | hl
    · obtain ⟨hline, hblock, herased, hop, hexits, hentered⟩ := h.shows l hl
      have hnot := hold hl
      refine ⟨?_, ?_, ?_, hop, hexits, ?_⟩
      · exact (line_congr (h'.inst _ hnot) (h'.reads _ hnot) (h'.exits _ hnot)).trans hline
      · rw [h'.inst _ hnot, hblock]
      · rw [h'.inst _ hnot, herased]
      · rw [h'.entered _ hnot]
        exact hentered
    · exact h'.shows l hl
  · rw [h'.inst j (hsplit hj).2, h.inst j (hsplit hj).1]
  · rw [h'.reads j (hsplit hj).2, h.reads j (hsplit hj).1]
  · rw [h'.exits j (hsplit hj).2, h.exits j (hsplit hj).1]
  · rw [h'.entered j (hsplit hj).2, h.entered j (hsplit hj).1]
  · rw [h'.block c, h.block c]
    split
    · simp only [map_append, append_assoc]
    · rfl
  · have hrest' := h'.rest
    rw [← h.rest, ← hrest']

theorem Inserts.has (hv : w.Has v) : w'.Has v := by
  cases v with
  | inst j =>
    show j.index < w'.insts
    rw [h.size]
    exact Nat.lt_add_right _ hv
  | param p => exact Nat.lt_of_lt_of_eq hv (congrArg params h.rest).symm
  | func f => exact Nat.lt_of_lt_of_eq hv (congrArg funcs h.rest).symm
  | global g => exact Nat.lt_of_lt_of_eq hv (congrArg globals h.rest).symm

theorem Inserts.stands (hi : w.Stands b pre i post) (hlt : i.index < w.insts) :
    w'.Stands b (pre ++ ls.map (·.id)) i post where
  insts := by rw [h.block, if_pos rfl]
  block := by rw [h.inst i (h.ids.not_mem hlt), hi.block]
  pre hmem := (mem_append.mp hmem).elim hi.pre (h.ids.not_mem hlt)
  post := hi.post

end

theorem insertBefore_eq (h : i ∉ pre) (j : InstId) :
    Build.insertBefore j (some i) (pre ++ i :: post) = pre ++ j :: i :: post := by
  have hpre : ∀ x ∈ pre, decide (x ≠ i) = true := fun x hx => decide_eq_true fun hxi => h (hxi ▸ hx)
  unfold Build.insertBefore
  dsimp only
  rw [takeWhile_append_of_pos hpre, dropWhile_append_of_pos hpre]
  simp

theorem inserts_emit (hi : w.Stands b pre i post) (hentered : w.entered w.nextInst)
    {types : TypeTable}
    (htypes : w.types.Extends types) (x : Inst) (hop : x.op.isTerminator = false) (vs : Args) :
    w.Inserts ((w.withTypes types).emit x vs [] b (some i)) b pre i post
      [⟨w.nextInst, x.op, x.type, x.payload, vs, []⟩] := by
  have hinst : ∀ j, ((w.withTypes types).emit x vs [] b (some i)).inst j =
      if j = w.nextInst then { x with block := some b, erased := false } else w.inst j := by
    intro j
    refine (inst_place _ _ _ _ _).trans ?_
    show (if j = w.nextInst then _ else Function.update w.inst w.nextInst x j) = _
    split
    · next hj => rw [show (addBranch (w.withTypes types) x vs []).inst j =
        x from hj ▸ Function.update_self ..]
    · next hj => exact Function.update_of_ne hj ..
  have hreads (j) : ((w.withTypes types).emit x vs [] b (some i)).reads j = if j = w.nextInst then
      vs else w.reads j :=
    Function.update_apply ..
  have hexits (j) : ((w.withTypes types).emit x vs [] b (some i)).exits j = if j = w.nextInst then
      [] else w.exits j :=
    Function.update_apply ..
  refine ⟨rfl, fun k l hk => ?_, fun l hl => ?_, fun j hj => ?_, fun j hj => ?_, fun j hj => ?_,
    fun j hj => rfl,
    fun c => ?_, htypes, rfl⟩
  · rcases k with _ | k
    · cases hk
      rfl
    · simp at hk
  · obtain rfl := mem_singleton.mp hl
    refine ⟨?_, ?_, ?_, hop, rfl, hentered⟩
    · unfold line
      rw [hinst, hreads, hexits, if_pos rfl, if_pos rfl, if_pos rfl]
    · rw [hinst, if_pos rfl]
    · rw [hinst, if_pos rfl]
  · rw [hinst, if_neg (by simpa using hj)]
  · rw [hreads, if_neg (by simpa using hj)]
  · rw [hexits, if_neg (by simpa using hj)]
  · refine (block_place _ _ _ _ _).trans ?_
    show (if c = b then { w.block c with insts := Build.insertBefore w.nextInst (some i)
                                           (w.block c).insts } else _) = _
    split
    · next hc =>
      subst hc
      rw [hi.insts, insertBefore_eq hi.pre]
      simp
    · rfl

theorem Inserts.rename (h : w.Inserts w' b pre i post ls) (hj : j ∈ ls.map (·.id)) (name : Text) :
    w.Inserts (w'.setInst j ({ · with name })) b pre i post ls := by
  have hinst : ∀ k, k ∉ ls.map (·.id) → (w'.setInst j ({ · with name })).inst k = w'.inst k := by
    intro k hk
    rw [inst_setInst, if_neg]
    exact fun hkj => hk (hkj ▸ hj)
  refine ⟨h.size, h.ids, fun l hl => ?_, fun k hk => (hinst k hk).trans (h.inst k hk), h.reads,
    h.exits, h.entered,
    h.block, h.types, h.rest⟩
  obtain ⟨hline, hblock, herased, hop, hexits, hentered⟩ := h.shows l hl
  have hsame : ((w'.setInst j ({ · with name })).inst l.id).op = (w'.inst l.id).op ∧
      ((w'.setInst j ({ · with name })).inst l.id).type = (w'.inst l.id).type ∧
      ((w'.setInst j ({ · with name })).inst l.id).payload = (w'.inst l.id).payload ∧
      ((w'.setInst j ({ · with name })).inst l.id).block = (w'.inst l.id).block ∧
      ((w'.setInst j ({ · with name })).inst l.id).erased = (w'.inst l.id).erased := by
    rw [inst_setInst]
    split <;> exact ⟨rfl, rfl, rfl, rfl, rfl⟩
  refine ⟨Eq.trans ?_ hline, hsame.2.2.2.1.trans hblock, hsame.2.2.2.2.trans herased, hop,
    hexits, hentered⟩
  unfold line
  rw [hsame.1, hsame.2.1, hsame.2.2.1]
  rfl

def Offers (w : View) (ls : List Flow.Line) (v : Value) : Prop := w.Has v ∨ ∃ l ∈ ls, v = .inst l.id

namespace Inserts

variable (h : w.Inserts w' b pre i post ls)
include h

theorem valueType (hv : w.Has v) : w'.valueType v = w.valueType v := by
  cases v with
  | inst j => exact congrArg Inst.type (h.inst j (h.ids.not_mem hv))
  | param p => exact congrArg Param.type (congrFun (congrArg param h.rest) p)
  | func f => exact congrArg Func.type (congrFun (congrArg func h.rest) f)
  | global g => exact congrArg Global.type (congrFun (congrArg global h.rest) g)

theorem type_line (hl : l ∈ ls) : w'.valueType (.inst l.id) = l.type :=
  congrArg Flow.Line.type (h.shows l hl).1

theorem offers (hv : w.Offers ls v) : w'.Has v := by
  rcases hv with hv | ⟨l, hl, rfl⟩
  · exact h.has hv
  · show l.id.index < w'.insts
    rw [h.size]
    exact (h.ids.lt (mem_map_of_mem hl)).2

end Inserts

end View

namespace Module

variable (m : Module)

theorem entered_next : m.view.entered m.view.nextInst := by
  show ∀ e ∈ (m.insts.get m.insts.next).targets, _
  rw [Pool.get_next]
  exact fun _ he => absurd he not_mem_nil

end Module

/-! ### Building before an instruction -/

/-- Building for `i`, which stands in `w`: the lines `ls` are there, and the next goes
behind them. -/
structure Building (w : View) (b : BlockId) (pre : List InstId) (i : InstId) (post : List InstId)
    (ls : List Flow.Line)
    (t : Builder) : Prop where
  sound : t.Sound
  block : t.cursor.block = some b
  before : t.cursor.before = some i
  journal : t.journal = some (ls.map (·.id))
  inserts : w.Inserts t.module.view b pre i post ls

structure View.Host (w : View) (b : BlockId) (pre : List InstId) (i : InstId)
    (post : List InstId) : Prop where
  stands : w.Stands b pre i post
  made : i.index < w.insts
  func : (w.block b).func.isSome

section Building

variable {w : View} {b : BlockId} {pre post : List InstId} {ls : List Flow.Line} {t : Builder}

section

variable (h : Building w b pre i post ls t)
include h

namespace Building

variable (hw : w.Host b pre i post)
include hw

theorem stands : t.view.Stands b (pre ++ ls.map (·.id)) i post := h.inserts.stands hw.stands hw.made

theorem canAttach {op : Opcode} (hop : op.isTerminator = false) :
    CanAttach t.module t.cursor op b where
  block := h.block
  func := by
    have hfunc : (t.view.block b).func = (w.block b).func := by
      rw [h.inserts.block, if_pos rfl]
    exact hfunc ▸ hw.func
  before j hj := by
    obtain rfl : i = j := mem_unique h.before hj
    exact ⟨(h.stands hw).block, hop⟩
  atEnd hnone := by
    rw [h.before] at hnone
    cases hnone

theorem emit {types : TypeTable} (htypes : t.module.types.Extends types) {x : Inst}
    (hx : Simple x) {vs : Args}
    (htakes : x.op.Takes vs.length) (hvs : ∀ v, some v ∈ vs → t.HasValue v) {Q : Post InstId}
    (k : ∀ u, Building w b pre i post
      (ls ++ [⟨t.view.nextInst, x.op, x.type, x.payload, vs, []⟩]) u →
      u.module.types = types → Q t.view.nextInst u) :
    wp (Build.emit x vs) Q E { t with module := t.module.withTypes types } := by
  have hcan : CanAttach (t.module.withTypes types) t.cursor x.op b := by
    obtain ⟨hb, hf, hbefore, hend⟩ := h.canAttach hw hx.op
    exact ⟨hb, hf, hbefore, hend⟩
  have hlinked : (t.module.withTypes types).Linked := h.sound.linked.dress _ _ _ _ _
  refine Build.wp_emit hlinked hx.fresh hvs (fun _ hno => absurd hcan (hno b))
    fun c m' hc hl hview => ?_
  obtain rfl : b = c := mem_unique hcan.block hc.block
  have hview' : m'.view = (t.view.withTypes types).emit x vs [] b t.cursor.before := hview
  have hsound := h.sound.emit types (hx.emittable htakes) (h.canAttach hw hx.op) hl hview'
  refine k _ ⟨hsound, h.block, h.before, ?_, ?_⟩ (congrArg View.types hview')
  · rw [h.journal, map_append]
    rfl
  · rw [h.before] at hview'
    rw [hview']
    exact h.inserts.trans (inserts_emit (h.stands hw) t.module.entered_next htypes x hx.op vs)

end Building

theorem Building.hasValue (hv : w.Offers ls v) : t.HasValue v :=
  (t.module.hasValue_iff_view v).mpr (h.inserts.offers hv)

theorem Building.valueType (hv : w.Has v) : t.module.valueType v = w.valueType v := by
  rw [← view_valueType, h.inserts.valueType hv]

theorem Building.type_line (hl : l ∈ ls) : t.module.valueType (.inst l.id) = l.type := by
  rw [← view_valueType, h.inserts.type_line hl]

theorem Building.setName (hl : l ∈ ls) (name : Text) {Q : Post Unit}
    (k : ∀ u, u.module.types = t.module.types → Building w b pre i post ls u → Q () u) :
    wp (Build.setName (.inst l.id) name) Q E t := by
  have hlt : t.module.insts.Has l.id := h.hasValue (.inr ⟨l, hl, rfl⟩)
  have hsound : Builder.Sound { t with module := t.module.setValueName name (.inst l.id) } :=
    (h.sound.extends_of_changes (h.sound.linked.setName name (.inst l.id))
      (View.Growth.alike (t.module.alike_setName name (.inst l.id))).changes).sound
  refine k _ rfl ⟨hsound, h.block, h.before, h.journal, ?_⟩
  rw [view_setName hlt]
  exact h.inserts.rename (mem_map_of_mem hl) name

end

section Lines

open Build

variable {Q : Post InstId} (h : Building w b pre i post ls t) (hw : w.Host b pre i post)
include h hw

theorem Building.structExtract {v : Option Value} (hv : ∀ x, v = some x → w.Offers ls x)
    {field : Text}
    (hE : ∀ e, (∀ x, v = some x → t.module.types.field? (t.module.valueType x) field = none) →
      E (.error e) t)
    (k : ∀ u x l index, v = some x → t.module.types.field? (t.module.valueType x) field =
      some (index, l.type) →
      l.op = .structExtract → l.payload = { field, index, aggregate := t.module.valueType x } →
      l.reads = [v] →
      Building w b pre i post (ls ++ [l]) u → Q l.id u) : wp (structExtract v field) Q E t := by
  refine wp_structExtract hE fun x index type hx hfield => ?_
  refine h.emit hw .rfl ⟨⟨rfl, rfl, rfl⟩, rfl, rfl, rfl⟩ (by trivial) ?_ fun u hu _ => ?_
  · exact mem_singleton_some (h.hasValue (hv x hx))
  · exact k u x _ index hx hfield rfl rfl (hx ▸ rfl) hu

theorem Building.primitive {p : Primitive} {args : Args}
    (hargs : ∀ x, some x ∈ args → w.Offers ls x)
    (hE : ∀ e, (∀ c type types, p.class? = some c →
      primitiveType t.module.types t.module.valueType c args ≠ .ok (type, types)) → E (.error e) t)
    (k : ∀ u l c types, p.class? = some c →
      primitiveType t.module.types t.module.valueType c args = .ok (l.type, types) →
      u.module.types = types →
      l.op = .primitive → l.payload = { primitive := p } → l.reads = args →
      Building w b pre i post (ls ++ [l]) u → Q l.id u) : wp (primitive p args) Q E t := by
  refine wp_primitive hE fun c type types hc htype => ?_
  refine h.emit hw (t.module.types.extends_primitiveType htype) ⟨⟨rfl, rfl, rfl⟩, rfl, rfl, rfl⟩
    (by trivial) ?_
    fun u hu htypes => ?_
  · exact fun x hx => h.hasValue (hargs x hx)
  · exact k u _ c types hc htype htypes rfl rfl rfl hu

theorem Building.tupleExtract {v : Option Value}
    (hv : ∀ x, v = some x → w.Offers ls x) {index : Int}
    (hE : ∀ e, (∀ x, v = some x → t.module.types.tupleElem? (t.module.valueType x) index = none) →
      E (.error e) t)
    (k : ∀ u x l, v = some x →
      t.module.types.tupleElem? (t.module.valueType x) index = some l.type →
      u.module.types = t.module.types → l.op = .tupleExtract → l.payload =
      { index, aggregate := t.module.valueType x } →
      l.reads = [v] → Building w b pre i post (ls ++ [l]) u → Q l.id u) :
      wp (tupleExtract v index) Q E t := by
  refine wp_tupleExtract hE fun x type hx helem => ?_
  refine h.emit hw .rfl ⟨⟨rfl, rfl, rfl⟩, rfl, rfl, rfl⟩ (by trivial) ?_ fun u hu htypes => ?_
  · exact mem_singleton_some (h.hasValue (hv x hx))
  · exact k u x _ hx helem htypes rfl rfl (hx ▸ rfl) hu

theorem Building.struct {type : TypeId} {fields : Args}
    (hfields : ∀ x, some x ∈ fields → w.Offers ls x)
    (hE : ∀ e, (∀ info, t.module.types.struct? type = some info →
      fields.length = info.fields.length →
      ¬ ∀ p ∈ fields.zip (info.fields.map (·.type)), t.module.Suits p.1 p.2) → E (.error e) t)
    (k : ∀ u l, l.type = type → l.op = .struct → l.payload = { aggregate := type } →
      l.reads = fields →
      Building w b pre i post (ls ++ [l]) u → Q l.id u) : wp (struct type fields) Q E t := by
  refine wp_struct hE (h.emit hw .rfl ⟨⟨rfl, rfl, rfl⟩, rfl, rfl, rfl⟩ (by trivial) ?_
    fun u hu _ => ?_)
  · exact fun x hx => h.hasValue (hfields x hx)
  · exact k u _ rfl rfl rfl rfl hu

end Lines

end Building

/-! ### Expansions -/

namespace View

/-- The lines `ls` took the place of `i`, and the last of them its uses; `w₁` is in between. -/
structure Expands (w w₁ w' : View) (b : BlockId) (pre : List InstId) (i : InstId)
    (post : List InstId) (ls : List Flow.Line)
    (last : Flow.Line) : Prop where
  inserts : w.Inserts w₁ b pre i post ls
  getLast : ls.getLast? = some last
  /-- Whoever reads `i` gets a value of the same type. -/
  type : w₁.Reads (.inst i) → last.type = (w.inst i).type
  eq : w' = (w₁.mapValues (Build.substitute (.inst i) (.inst last.id))).discard i

section Expands

variable {w w₁ w' : View} {b : BlockId} {pre post : List InstId} {ls : List Flow.Line}
  {last : Flow.Line}
  (h : w.Expands w₁ w' b pre i post ls last)
include h

theorem Expands.size : w'.insts = w.insts + ls.length := by
  rw [h.eq]
  exact h.inserts.size

theorem Expands.types : w.types.Extends w'.types := by
  rw [h.eq]
  exact h.inserts.types

theorem Expands.gone : (w'.inst i).erased = true ∧ (w'.inst i).block = none ∧ w'.reads i = [] ∧
    w'.exits i = [] := by
  rw [h.eq, inst_discard, if_pos rfl, reads_discard, if_pos rfl, exits_discard, if_pos rfl]
  exact ⟨rfl, rfl, rfl, rfl⟩

section Others

variable {j : InstId} (hj : j ≠ i) (hnew : j ∉ ls.map (·.id))
include hj hnew

theorem Expands.inst : w'.inst j = w.inst j := by
  rw [h.eq, inst_discard, if_neg hj]
  exact h.inserts.inst j hnew

theorem Expands.reads :
    w'.reads j = (w.reads j).map (Build.substitute (.inst i) (.inst last.id)) := by
  rw [h.eq, reads_discard, if_neg hj, ← h.inserts.reads j hnew]
  rfl

theorem Expands.exits :
    w'.exits j = (w.exits j).map fun x =>
    { x with args := x.args.map (Build.substitute (.inst i) (.inst last.id)) } := by
  rw [h.eq, exits_discard, if_neg hj, ← h.inserts.exits j hnew]
  rfl

theorem Expands.line :
    w'.line j = (w.line j).mapValues (Build.substitute (.inst i) (.inst last.id)) := by
  unfold View.line
  rw [h.inst hj hnew, h.reads hj hnew, h.exits hj hnew]
  rfl

end Others

variable (hw : w.Host b pre i post)
include hw

theorem Expands.line_ne (hl : l ∈ ls) : l.id ≠ i :=
  fun heq => h.inserts.ids.not_mem hw.made (heq ▸ mem_map_of_mem hl)

theorem Expands.shows (hl : l ∈ ls) :
    w'.line l.id = l.mapValues (Build.substitute (.inst i) (.inst last.id)) ∧
      (w'.inst l.id).block = some b ∧ (w'.inst l.id).erased = false := by
  obtain ⟨hline, hblock, herased, -, hexits, -⟩ := h.inserts.shows l hl
  have hne := h.line_ne hw hl
  have hinst : w'.inst l.id = w₁.inst l.id := by
    rw [h.eq, inst_discard, if_neg hne]
    rfl
  refine ⟨?_, hinst ▸ hblock, hinst ▸ herased⟩
  unfold View.line
  rw [hinst, h.eq, reads_discard, if_neg hne, exits_discard, if_neg hne]
  show (w₁.line l.id).mapValues _ = _
  rw [hline]

theorem Expands.block (hs : w.Shape) (c : BlockId) :
    w'.block c = { w.block c with insts := (w.block c).insts.flatMap fun k =>
                                    if k = i then ls.map (·.id) else [k] } := by
  have hkeep {ks : List InstId} (hks : i ∉ ks) :
      (ks.flatMap fun k => if k = i then ls.map (·.id) else [k]) = ks := by
    have hone : ∀ k ∈ ks, (if k = i then ls.map (·.id) else [k]) = [k] :=
      fun k hk => if_neg fun heq : k = i => hks (heq ▸ hk)
    exact (flatMap_congr hone).trans (flatMap_singleton' ks)
  have hfilter {ks : List InstId} (hks : i ∉ ks) : ks.filter (· ≠ i) = ks :=
    filter_eq_self.mpr fun k hk => decide_eq_true fun heq => hks (heq ▸ hk)
  have hnew : i ∉ ls.map (·.id) := h.inserts.ids.not_mem hw.made
  have hplaced : (w₁.mapValues (Build.substitute (.inst i) (.inst last.id))).Placed i := by
    intro d hd
    show (w₁.inst i).block = some d
    rw [h.inserts.inst i hnew]
    change i ∈ (w₁.block d).insts at hd
    rw [h.inserts.block d] at hd
    split at hd
    · next hdb => exact hdb ▸ hw.stands.block
    · exact hs.insts.placed i d hd
  rw [h.eq, block_discard hplaced]
  show { w₁.block c with insts := (w₁.block c).insts.filter (· ≠ i) } = _
  rw [h.inserts.block c]
  by_cases hc : c = b
  · subst hc
    rw [if_pos rfl, hw.stands.insts]
    simp only [filter_append, filter_cons, flatMap_append, flatMap_cons, hfilter hw.stands.pre,
      hfilter hw.stands.post, hfilter hnew, hkeep hw.stands.pre, hkeep hw.stands.post]
    simp
  · have hnot : i ∉ (w.block c).insts := fun hi =>
      hc (mem_unique (hs.insts.placed i c hi) hw.stands.block)
    rw [if_neg hc, hfilter hnot, hkeep hnot]

theorem Expands.attached (hs : w.Shape) (ha : w.Attached) : w'.Attached := by
  have hmem {j k : InstId} {c : BlockId} (hj : j ∈ (w.block c).insts)
    (hk : k ∈ if j = i then ls.map (·.id) else [j]) :
      k ∈ (w'.block c).insts := by
    rw [h.block hw hs]
    exact mem_flatMap.mpr ⟨j, hj, hk⟩
  intro j
  by_cases hji : j = i
  · subst hji
    exact .inr h.gone.2
  by_cases hnew : j ∈ ls.map (·.id)
  · exact .inl ⟨b, hmem (j := i) (hw.stands.insts ▸ by simp) (by rwa [if_pos rfl])⟩
  · rw [h.inst hji hnew, h.reads hji hnew, h.exits hji hnew]
    refine (ha j).imp (fun ⟨c, hc⟩ => ⟨c, hmem hc (by simp [hji])⟩) fun ⟨hnone, hreads, hexits⟩ =>
      ⟨hnone, ?_, ?_⟩
    · rw [hreads, map_nil]
    · rw [hexits, map_nil]

end Expands

end View

section Explosion

open Build

variable {w : View} {b : BlockId} {pre post : List InstId} {ls : List Flow.Line} {t : Builder}

/-- An expansion is refused: nothing was built, or its last line has not the type that the uses
expect. -/
def View.Unfit (w : View) (i : InstId) (ls : List Flow.Line) : Prop :=
  ∀ l, ls.getLast? = some l → l.type ≠ (w.inst i).type

theorem wp_discardAll {is : List InstId} (h : s.Linked)
    (his : ∀ j ∈ is, s.module.insts.Has j) : wp (is.forM discard) Any E s := by
  refine wp_forM_of_each (fun t => t.Linked ∧ ∀ j ∈ is, t.module.insts.Has j) ?_ ⟨h, his⟩ fun _ _ =>
    trivial
  rintro j hj t ⟨hl, hhas⟩
  refine wp_discard hl (hhas j hj) fun m' hl' hview => ⟨hl', fun k hk => ?_⟩
  have hk' := (t.module.hasValue_iff_view (.inst k)).mp (hhas k hk)
  rw [← has_discard t.view j, ← hview] at hk'
  exact (m'.hasValue_iff_view (.inst k)).mpr hk'

theorem Building.wp_endExplosion {x : Explosion} (h : Building w b pre x.inst post ls t)
    (hw : w.Host b pre x.inst post) (hx : x.Made t.module) (outcome : Except Error Unit) :
    wp (endExplosion x outcome)
      (fun _ u => outcome = .ok () ∧
      ∃ w₁ last, w.Expands w₁ u.module.view b pre x.inst post ls last)
      (fun f _ => (∃ e, f = .error e) ∧ (outcome ≠ .ok () ∨ w.Unfit x.inst ls)) t := by
  have hinst : t.module.view.inst x.inst = w.inst x.inst :=
    h.inserts.inst _ (h.inserts.ids.not_mem hw.made)
  have htype : (t.module.insts.get x.inst).type = (w.inst x.inst).type := congrArg (·.type) hinst
  have hline {l : Flow.Line} (hl : l ∈ ls) : (t.module.insts.get l.id).type = l.type :=
    congrArg Flow.Line.type (h.inserts.shows l hl).1
  refine Ir.wp_endExplosion h.sound hx (fun e hnone => ?_)
    fun j m m₁ m₂ hj hm hview₁ _ _ hview₂ => ?_
  · refine wp_seq (wp_discardAll h.sound.linked fun j hj => ?_) fun _ u _ => ⟨⟨_, rfl⟩, ?_⟩
    · exact h.sound.built j (mem_reverse.mp hj)
    · refine or_iff_not_imp_left.mpr fun hok l hl heq =>
        hnone l.id ⟨not_not.mp hok, ?_, fun _ => ?_⟩
      · rw [h.journal, getD_some, List.getLast?_map, hl, map_some]
      · exact (hline (mem_of_getLast? hl)).trans (heq.trans htype.symm)
  · have hid := hj.last
    rw [h.journal, getD_some, List.getLast?_map] at hid
    obtain ⟨l, hlast, rfl⟩ := map_eq_some_iff.mp hid
    have hl := mem_of_getLast? hlast
    have hmade : t.module.insts.Has l.id := h.sound.built _ (mem_of_getLast? hj.last)
    have hnamed : w.Inserts m.view b pre x.inst post ls ∧
        (m.view.Reads (.inst x.inst) → t.module.view.Reads (.inst x.inst)) := by
      rcases hm with rfl | rfl
      · exact ⟨h.inserts, id⟩
      · rw [view_setName hmade]
        exact ⟨h.inserts.rename (mem_map_of_mem hl) _, id⟩
    refine ⟨hj.ok, m.view, l, hnamed.1, hlast, fun hread => ?_, ?_⟩
    · rw [← htype, ← hline hl]
      exact hj.type fun hnil => (h.sound.linked.uses_eq_nil (v := .inst x.inst)).mp hnil
        (hnamed.2 hread)
    · rw [hview₂, hview₁]

/-- An instruction is expanded into the lines that `build` builds. Nothing but an error can come
between. -/
theorem wp_explode (hs : s.Sound) (hw : s.view.Host b pre i post) {build : Build Unit}
    {P : List Flow.Line → Prop} {bad : Prop} (hbuild : ∀ t, Building s.view b pre i post [] t →
      wp build (fun _ u => ∃ ls, Building s.view b pre i post ls u ∧ P ls)
        (fun f u => (∃ e, f = .error e) ∧ bad ∧ ∃ ls, Building s.view b pre i post ls u) t) :
    wp (explode (some i) build)
      (fun _ u => u.Sound ∧ ∃ ls w₁ last, P ls ∧ s.view.Expands w₁ u.view b pre i post ls last)
      (fun f _ => (∃ e, f = .error e) ∧ (bad ∨ ∃ ls, P ls ∧ s.view.Unfit i ls)) s := by
  have hi : s.HasValue (.inst i) := hw.made
  have hend {ls : List Flow.Line} {u : Builder} (hu : Building s.view b pre i post ls u)
    (outcome : Except Error Unit) :
      wp (endExplosion { inst := i, cursor := s.cursor, journal := s.journal } outcome)
        (fun _ v => v.Sound ∧ outcome = .ok () ∧
          ∃ w₁ last, s.view.Expands w₁ v.view b pre i post ls last)
        (fun f _ => (∃ e, f = .error e) ∧ (outcome ≠ .ok () ∨ s.view.Unfit i ls)) u := by
    have hkept {v : Value} (hv : s.HasValue v) : u.module.HasValue v :=
      (u.module.hasValue_iff_view v).mpr (hu.inserts.has ((s.module.hasValue_iff_view v).mp hv))
    have hmade : Explosion.Made { inst := i, cursor := s.cursor, journal := s.journal } u.module :=
      ⟨hkept hi, fun is his j hj => hkept (hs.journal is his j hj)⟩
    refine wp_mono (wp_and (keeps_endExplosion hu.sound hmade outcome)
      (hu.wp_endExplosion hw hmade outcome)) (fun _ _ h => ⟨h.1.sound, h.2⟩) fun _ _ h => h.2
  have hblock : (s.module.insts.get i).block = some b := hw.stands.block
  simp only [explode, beginExplosion, attached, wp_bind, wp_inst, hblock, wp_pure, wp_cursor,
    wp_get, positionBefore,
    wp_module, wp_setCursor, wp_modify, wp_attempt]
  have hstart : Building s.view b pre i post [] { s with
      cursor := { func := s.module.instFunc i, block := some b, before := some i }
      journal := some [] } :=
    ⟨⟨hs.linked, hs.shape, hs.ended, fun is his j hj => absurd hj (some.inj his ▸ not_mem_nil)⟩,
      rfl, rfl, rfl,
      .refl hw.stands⟩
  refine wp_mono (hbuild _ hstart) ?_ ?_
  · rintro _ u ⟨ls, hu, hP⟩
    refine wp_mono (hend hu (.ok ())) ?_ ?_
    · rintro _ v ⟨hv, -, w₁, last, hexpands⟩
      exact ⟨hv, ls, w₁, last, hP, hexpands⟩
    · rintro f v ⟨herror, hbad | hunfit⟩
      · exact absurd rfl hbad
      · exact ⟨herror, .inr ⟨ls, hP, hunfit⟩⟩
  · rintro f u ⟨⟨e, rfl⟩, hbad, ls, hu⟩
    refine wp_mono (hend hu (.error e)) ?_ ?_
    · rintro _ v ⟨-, hok, -⟩
      cases hok
    · rintro f v ⟨herror, -⟩
      exact ⟨herror, .inl hbad⟩

end Explosion

end Midlevel.Ir
