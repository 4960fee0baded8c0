import Midlevel.Proofs.Ir.Applications

/-!
An operation that fails has changed nothing but the type table: the checks are made before the first
change, and those that moving and replacing an instruction make again half-way cannot fail. Building
a function is the exception: it is declared before the names of its parameters are counted.
-/

namespace Midlevel.Ir

open Build

variable {α : Type} {s : Builder}
variable {x : Build α} {names : List Text} {type : TypeId}

/-- If `x` fails, nothing has changed but the type table. -/
def Spares (x : Build α) (s : Builder) : Prop :=
  wp x (fun _ _ => True) (fun f t => ∀ e, f = .error e → s.Gains t) s

theorem Tries.spares (h : Tries x s) : Spares x s :=
  wp_mono h (fun _ _ _ => trivial) fun _ _ he => he.gains

/-- Functions of type `type` have as many parameters as there are names. -/
def Module.Named (m : Module) (type : TypeId) (names : List Text) : Prop :=
  ∀ sig, m.types.signature? type = some sig → names.length = sig.params.length

/-- `f` has that type, and there are no other types than before. -/
structure Builder.Declares (s : Builder) (type : TypeId) (f : FuncId) (t : Builder) : Prop where
  linked : t.module.Linked
  has : t.module.HasValue (.func f)
  types : t.module.types = s.module.types
  type : (t.module.funcs.get f).type = type

/-- A function that is only declared gets its body if its parameters get their names. -/
theorem Builder.Declares.define {t : Builder} {f : FuncId} (h : s.Declares type f t)
    (hdefined : (t.module.funcs.get f).defined = false) (hnames : s.module.Named type names) :
    wp (defineAndEnter f names) Any (fun f u => ∀ e, f = .error e → s.Gains u) t := by
  rw [defineAndEnter, wp_bind]
  refine wp_defineBody h.linked h.has names (fun e hno => ?_) (fun _ _ _ => nofun)
    fun m' _ _ _ _ _ _ => ?_
  · rcases hno with hdef | ⟨sig, hsig, hlength⟩
    · cases hdef.symm.trans hdefined
    · obtain ⟨types, htypes, hsig⟩ := Option.bind_eq_some_iff.mp hsig
      rw [Module.typesOf] at htypes
      split at htypes
      · cases htypes
      · rw [← Option.some.inj htypes, h.types, h.type] at hsig
        exact absurd (hnames sig hsig) hlength
  · rw [wp_bind, wp_func, wp_bind]
    cases (m'.funcs.get f).blocks.head? with
    | none => nofun
    | some b => trivial

theorem wp_addFunction_declares (h : s.Linked) (name : Text) (type : TypeId) :
    wp (addFunction name type)
    (fun f t => s.Declares type f t ∧ (t.module.funcs.get f).defined = false)
      (fun f t => ∀ e, f = .error e → s.Gains t) s := by
  refine wp_addFunction h name type (fun _ _ _ => s.gains_self) fun m' _ hl hview => ?_
  have hfunc : m'.view.func s.module.view.nextFunc = { name, type, refName := name } := by
    rw [hview]
    exact Function.update_self ..
  refine ⟨⟨hl, ?_, (congrArg View.types hview :), congrArg Func.type hfunc⟩,
    congrArg Func.defined hfunc⟩
  show s.module.view.funcs < m'.view.funcs
  rw [hview]
  exact Nat.lt_succ_self _

theorem spares_define {x : Build FuncId} (hnames : s.module.Named type names)
    (hx : wp x (fun f t => s.Declares type f t ∧ (t.module.funcs.get f).defined = false)
      (fun f t => ∀ e, f = .error e → s.Gains t) s) : Spares (do defineAndEnter (← x) names) s := by
  rw [Spares, wp_bind]
  exact wp_imp hx fun _ _ ht => ht.1.define ht.2 hnames

theorem spares_getOrBuildFunction (h : s.Sound) (name : Text) (hnames : s.module.Named type names) :
    Spares (getOrBuildFunction name type names) s := by
  have hget : wp (getOrAddFunction name type) (s.Declares type) (fun f t => ∀ e, f = .error e →
      s.Gains t) s := by
    rw [getOrAddFunction, wp_bind, wp_module]
    split
    · exact wp_imp (wp_addFunction_declares h.linked name type) fun _ _ ht => ht.1
    · next f hf =>
      dsimp only
      split
      · next htype => exact ⟨h.linked, h.hasFunc hf, rfl, htype⟩
      · exact fun _ _ => s.gains_self
  rw [Spares, getOrBuildFunction, wp_bind]
  refine wp_imp hget fun f t ht => ?_
  rw [wp_bind, wp_func]
  split
  · trivial
  · next hdefined => exact ht.define (Bool.eq_false_iff.mpr hdefined) hnames

/-- The operations that build or edit a module, on handles that it has given out; whoever builds a
function names all its parameters. -/
inductive Attempt (m : Module) : {α : Type} → Build α → Prop
  | construct {l : Line} {x : Build InstId} (h : Constructor l x) (h' : m.KnowsAll l.reads) :
    Attempt m x
  | callNothing (args : List (Option Value)) : Attempt m (call none args)
  | br (target : Option BlockId) {args : List (Option Value)} (h : m.KnowsAll args) :
    Attempt m (br target args)
  | condBr {cond : Option Value} (onTrue onFalse : Option BlockId)
    {trueArgs falseArgs : List (Option Value)}
    (h : m.Knows cond) (h' : m.KnowsAll (trueArgs ++ falseArgs)) :
    Attempt m (condBr cond onTrue trueArgs onFalse falseArgs)
  | ret {value : Option Value} (h : m.Knows value) : Attempt m (ret value)
  | trap : Attempt m trap
  | insert {i : Option InstId} (h : m.Knows (i.map Value.inst)) : Attempt m (insert i)
  | detach (i : Option InstId) : Attempt m (detach i)
  | move (i : Option InstId) (place : Cursor) : Attempt m (move i place)
  | replace (old : Option InstId) {new : Option InstId} (h : m.Knows (new.map Value.inst)) :
    Attempt m (replace old new)
  | erase (i : Option InstId) : Attempt m (erase i)
  | eraseFrom (parent : Option BlockId) (i : Option InstId) : Attempt m (eraseFrom parent i)
  | eraseBlocks (blocks : List (Option BlockId)) : Attempt m (eraseBlocks blocks)
  | mergeBlocks (pred succ : Option BlockId) : Attempt m (mergeBlocks pred succ)
  | moveBlockAfter (b anchor : Option BlockId) : Attempt m (moveBlockAfter b anchor)
  | moveBlockBefore (b anchor : Option BlockId) : Attempt m (moveBlockBefore b anchor)
  | appendBlock (name : Text) (params : List Member) : Attempt m (appendBlock name params)
  | addFunction (name : Text) (type : TypeId) : Attempt m (addFunction name type)
  | addUniqueFunction (name : Text) (type : TypeId) : Attempt m (addUniqueFunction name type)
  | getOrAddFunction (name : Text) (type : TypeId) : Attempt m (getOrAddFunction name type)
  | resolve (name : Text) : Attempt m (resolve name)
  | defineBody {f : FuncId} (h : m.HasValue (.func f)) (names : List Text) :
    Attempt m (defineBody f names)
  | buildFunction (name : Text) {type : TypeId} {names : List Text} (h : m.Named type names) :
    Attempt m (buildFunction name type names)
  | buildUniqueFunction (name : Text) {type : TypeId} {names : List Text} (h : m.Named type names) :
    Attempt m (buildUniqueFunction name type names)
  | getOrBuildFunction (name : Text) {type : TypeId} {names : List Text} (h : m.Named type names) :
    Attempt m (getOrBuildFunction name type names)
  | removeFunction {f : FuncId} (h : m.HasValue (.func f)) : Attempt m (removeFunction f)
  | addGlobal (name : Text) (elem : TypeId) : Attempt m (addGlobal name elem)

theorem Attempt.spares (hx : Attempt s.module x) (h : s.Sound) : Spares x s := by
  cases hx with
  | construct hx hreads => exact (builds_construct h hx hreads).tries.spares
  | callNothing args => exact Tries.spares (Tries.fail _)
  | br target hargs => exact (builds_br h hargs).tries.spares
  | condBr onTrue onFalse hcond hargs => exact (builds_condBr h hcond hargs).tries.spares
  | ret hv => exact (builds_ret h hv).tries.spares
  | trap => exact (builds_trap h).tries.spares
  | insert hi => exact (builds_insert h fun i hi' => hi _ (by rw [hi']; rfl)).tries.spares
  | detach i => exact (tries_detach h i).spares
  | move i place => exact (tries_move h i place).spares
  | replace old hnew => exact (tries_replace h old fun i hi => hnew _ (by rw [hi]; rfl)).spares
  | erase i => exact (tries_erase h i).spares
  | eraseFrom parent i => exact (tries_eraseFrom h parent i).spares
  | eraseBlocks blocks => exact (tries_eraseBlocks h blocks).spares
  | mergeBlocks pred succ => exact (tries_mergeBlocks h pred succ).spares
  | moveBlockAfter b anchor =>
    exact (tries_moveBlock h b anchor false (fun _ _ => .refl _) fun _ _ _ => rfl).spares
  | moveBlockBefore b anchor =>
    exact (tries_moveBlock h b anchor true (fun _ _ => .swap _ _ _) nofun).spares
  | appendBlock name params => exact (builds_appendBlock h name params).tries.spares
  | addFunction name type => exact (buildsFunc_addFunction h name type).builds.tries.spares
  | addUniqueFunction name type =>
    exact (buildsFunc_addUniqueFunction h name type).builds.tries.spares
  | getOrAddFunction name type =>
    exact (buildsFunc_getOrAddFunction h name type).builds.tries.spares
  | resolve name => exact (buildsFunc_resolve h name).builds.tries.spares
  | defineBody hf names => exact (builds_defineBody h hf names).tries.spares
  | buildFunction name hnames =>
    exact spares_define hnames (wp_addFunction_declares h.linked name _)
  | buildUniqueFunction name hnames =>
    refine spares_define hnames ?_
    rw [Build.addUniqueFunction, wp_bind, wp_module]
    exact wp_addFunction_declares h.linked _ _
  | getOrBuildFunction name hnames => exact spares_getOrBuildFunction h name hnames
  | removeFunction hf => exact (tries_removeFunction h hf).spares
  | addGlobal name elem => exact (tries_addGlobal h name elem).spares

/-- An operation that fails leaves the module, the cursor and the journal as they were; only the
type table may have grown. -/
theorem refusal_changes_nothing {t : Builder} {x : Build α} {e : Error} (hs : Built s)
    (hx : Attempt s.module x)
    (h : x.run.run s = (.error (.error e), t)) :
    ∃ types, s.module.types.Extends types ∧ t = { s with module := s.module.withTypes types } :=
  (wp_iff_of_error h).mp (hx.spares hs.sound) e rfl

def isRefusal (r : Except Fault α) : Bool := r matches .error (.error _)

theorem exists_refusal (h : isRefusal (x.run.run s).1 = true) :
    ∃ e, x.run.run s = (.error (.error e), after x s) := by
  rw [after]
  generalize x.run.run s = r at h
  obtain ⟨_ | _, t⟩ := r
  · next f =>
    cases f with
    | error e => exact ⟨e, rfl⟩
    | crash c => cases h
  · cases h

/-- A literal may not go behind the return. -/
theorem settled_refuses_move : ∃ e, (move (some ⟨0⟩) { block := some ⟨0⟩ }).run.run settled =
      (.error (.error e), after (move (some ⟨0⟩) { block := some ⟨0⟩ }) settled) ∧
    ∃ types, settled.module.types.Extends types ∧
      after (move (some ⟨0⟩) { block := some ⟨0⟩ }) settled =
      { settled with module := settled.module.withTypes types } := by
  obtain ⟨e, he⟩ := exists_refusal (x := move (some ⟨0⟩) { block := some ⟨0⟩ }) (s := settled)
    (by decide +kernel)
  exact ⟨e, he, refusal_changes_nothing built_settled (.move _ _) he⟩

/-- A function with a parameter that gets no name stays behind as a declaration. -/
theorem unnamed_parameter_leaves_declaration :
    ∃ e t, Built settled ∧ (buildFunction "g" predicateType.1 []).run.run settled =
    (.error (.error e), t) ∧
      settled.module.funcNamed? "g" = none ∧ (t.module.funcNamed? "g").isSome := by
  obtain ⟨e, he⟩ := exists_refusal (x := buildFunction "g" predicateType.1 []) (s := settled)
    (by decide +kernel)
  exact ⟨e, _, built_settled, he, by decide +kernel, by decide +kernel⟩

end Midlevel.Ir
