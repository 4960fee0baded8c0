import Midlevel.Pass.ControlFlow
import Mathlib.Data.List.Basic

/-!
Runs of control-flow graphs. A graph is the code of a function apart from where it is kept: every
block has parameters and lines, and a line reads values and may leave the block. What the lines mean
is left to a machine, except for those that the control flow itself depends on: literal booleans,
branches, returns and traps.

Two graphs are compared by what an observer sees, which is the instructions that are performed, with
the values they read, and how the run ends. `Simulation` is the one proof principle for that: a turn
of the one graph is matched by one or more turns of the other.
-/

namespace Midlevel.Flow

open Ir List
open Pass (Exit)

structure Line where
  id : InstId
  op : Opcode
  type : TypeId
  payload : Payload
  reads : List (Option Value)
  exits : List Exit

/-- Everything a line reads, the arguments of its exits included. -/
def Line.values (l : Line) : List (Option Value) := l.reads ++ l.exits.flatMap Exit.args

structure Graph where
  entry : BlockId
  params : BlockId → List ParamId
  lines : BlockId → List Line

/-! ### Machines -/

/-- What an instruction does: it has a result, or it traps. -/
inductive Effect (V W : Type) where
  | next (value : V) (world : W)
  | trap (world : W)

/-- An interpretation of the instructions that do not end a block, on values `V` and worlds `W`. -/
structure Machine (V W : Type) where
  func : FuncId → V
  global : GlobalId → V
  act : Opcode → TypeId → Payload → List (Option V) → W → Effect V W
  bool : Bool → V
  truth : V → Bool
  truth_bool : ∀ b, truth (bool b) = b

/-- The values that are known, by what they are the values of. -/
abbrev Env (V : Type) := Value → Option V

inductive Outcome (V W : Type) where
  | returned (values : List (Option V)) (world : W)
  | trapped (world : W)
  /-- The code goes nowhere: it has no end, or it branches on a value that is not known. -/
  | stuck (world : W)

/-- An instruction that was performed, with the values it read. -/
structure Event (V : Type) where
  id : InstId
  op : Opcode
  type : TypeId
  payload : Payload
  operands : List (Option V)

structure Config (V W : Type) where
  block : BlockId
  env : Env V
  world : W

inductive Leave (V W : Type) where
  | jump (target : BlockId) (args : List (Option V)) (env : Env V) (world : W)
  | stop (o : Outcome V W)

variable {V W : Type}

namespace Env

def read (env : Env V) (v : Option Value) : Option V := v.bind env

def set (env : Env V) (v : Value) (x : V) : Env V := Function.update env v (some x)

/-- All parameters get their values at once. -/
def bind (env : Env V) (ps : List ParamId) (vs : List (Option V)) : Env V
  | .param p => match ps.idxOf? p with
    | some k => vs[k]?.join
    | none => env (.param p)
  | v => env v

end Env

namespace Machine

variable (M : Machine V W)

def perform (l : Line) (operands : List (Option V)) (w : W) : Effect V W :=
  if l.op = .boolLiteral then .next (M.bool l.payload.bool) w
  else M.act l.op l.type l.payload operands w

def take (x : Option Exit) (env : Env V) (w : W) : Leave V W :=
  match x with
  | some ⟨some t, args⟩ => .jump t (args.map env.read) env w
  | _ => .stop (.stuck w)

def leave (l : Line) (env : Env V) (w : W) : Leave V W :=
  match l.op with
  | .br => take l.exits[0]? env w
  | .condBr =>
    match l.reads.head?.bind env.read with
    | some c => take (if M.truth c then l.exits[0]? else l.exits[1]?) env w
    | none => .stop (.stuck w)
  | .ret => .stop (.returned (l.reads.map env.read) w)
  | .trap => .stop (.trapped w)
  | _ => .stop (.stuck w)

def event (l : Line) (env : Env V) : Event V :=
  ⟨l.id, l.op, l.type, l.payload, l.reads.map env.read⟩

/-- The lines of a block, up to the first that ends it. -/
def exec : List Line → Env V → W → List (Event V) × Leave V W
  | [], _, w => ([], .stop (.stuck w))
  | l :: rest, env, w =>
    if l.op.isTerminator then ([], M.leave l env w)
    else match M.perform l (l.reads.map env.read) w with
      | .next x w' =>
        let r := exec rest (env.set (.inst l.id) x) w'
        (event l env :: r.1, r.2)
      | .trap w' => ([event l env], .stop (.trapped w'))

/-- Functions and globals are known from the start. -/
def constants : Env V
  | .func f => some (M.func f)
  | .global g => some (M.global g)
  | _ => none

end Machine

/-! ### Runs -/

namespace Graph

variable (g : Graph) (M : Machine V W)

def enter : Leave V W → Config V W ⊕ Outcome V W
  | .jump t args env w => .inl ⟨t, env.bind (g.params t) args, w⟩
  | .stop o => .inr o

def turn (c : Config V W) : List (Event V) × (Config V W ⊕ Outcome V W) :=
  let r := M.exec (g.lines c.block) c.env c.world
  (r.1, g.enter r.2)

def run : Nat → Config V W → List (Event V) × (Config V W ⊕ Outcome V W)
  | 0, c => ([], .inl c)
  | n + 1, c =>
    match g.turn M c with
    | (es, .inl d) =>
      let r := run n d
      (es ++ r.1, r.2)
    | (es, .inr o) => (es, .inr o)

def start (args : List V) (w : W) : Config V W :=
  ⟨g.entry, M.constants.bind (g.params g.entry) (args.map some), w⟩

/-- The run from `c` ends, after those events. -/
def Ends (c : Config V W) (es : List (Event V)) (o : Outcome V W) : Prop :=
  ∃ n, g.run M n c = (es, .inr o)

/-- Those events happen first in the run from `c`, which need not end. -/
def Performs (c : Config V W) (es : List (Event V)) : Prop :=
  ∃ n, es <+: (g.run M n c).1

def Diverges (c : Config V W) : Prop := ∀ es o, ¬ g.Ends M c es o

end Graph

def kept (dropped : InstId → Bool) (es : List (Event V)) : List (Event V) :=
  es.filter fun e => !dropped e.id

/-- On every machine, with any arguments and from any world, the runs of `g'` are those of `g` but
for the instructions that were dropped. -/
def Same (dropped : InstId → Bool) (g g' : Graph) : Prop :=
  ∀ (V W : Type) (M : Machine V W) (args : List V) (w : W),
    (∀ es o, g'.Ends M (g'.start M args w) es o ↔ ∃ es₀, g.Ends M (g.start M args w) es₀ o ∧
      es = kept dropped es₀) ∧
    (∀ es, g'.Performs M (g'.start M args w) es ↔ ∃ es₀, g.Performs M (g.start M args w) es₀ ∧
      es = kept dropped es₀) ∧
    (g'.Diverges M (g'.start M args w) ↔ g.Diverges M (g.start M args w))

namespace Graph

variable {g : Graph} {M : Machine V W} {c d : Config V W} {es : List (Event V)} {o : Outcome V W}

theorem run_succ_of_jump (h : g.turn M c = (es, .inl d)) (n : Nat) :
    g.run M (n + 1) c = (es ++ (g.run M n d).1, (g.run M n d).2) := by
  simp only [run, h]

theorem run_succ_of_stop (h : g.turn M c = (es, .inr o)) (n : Nat) :
    g.run M (n + 1) c = (es, .inr o) := by
  simp only [run, h]

theorem run_one (c : Config V W) : g.run M 1 c = g.turn M c := by
  cases h : g.turn M c with
  | mk es r =>
    cases r with
    | inl d => rw [run_succ_of_jump h, run, append_nil]
    | inr o => rw [run_succ_of_stop h]

theorem run_add (m n : Nat) (c : Config V W) : g.run M (m + n) c =
    ((g.run M m c).1 ++ (g.run M m c).2.elim (fun d => (g.run M n d).1) (fun _ => []),
      (g.run M m c).2.elim (fun d => (g.run M n d).2) .inr) := by
  induction m generalizing c with
  | zero => rw [Nat.zero_add, run, nil_append, Sum.elim_inl, Sum.elim_inl]
  | succ m ih =>
    rw [Nat.succ_add]
    cases h : g.turn M c with
    | mk es r =>
      cases r with
      | inl d => rw [run_succ_of_jump h, run_succ_of_jump h, ih, append_assoc]
      | inr o => rw [run_succ_of_stop h, run_succ_of_stop h, Sum.elim_inr, Sum.elim_inr, append_nil]

theorem run_prefix (m n : Nat) (c : Config V W) : (g.run M m c).1 <+: (g.run M (m + n) c).1 := by
  rw [run_add]
  exact prefix_append ..

end Graph

/-! ### Simulation -/

/-- Both runs are at related points, or have ended alike. -/
inductive Agree (R : Config V W → Config V W → Prop) : Config V W ⊕ Outcome V W →
    Config V W ⊕ Outcome V W → Prop
  | going {c c' : Config V W} (h : R c c') : Agree R (.inl c) (.inl c')
  | ended (o : Outcome V W) : Agree R (.inr o) (.inr o)

/-- From related points, a turn of `g'` is matched by one or more turns of `g`. -/
def Simulation (dropped : InstId → Bool) (g g' : Graph) (M : Machine V W)
    (R : Config V W → Config V W → Prop) : Prop :=
  ∀ c c', R c c' → ∃ k, (g'.turn M c').1 = kept dropped (g.run M (k + 1) c).1 ∧
    Agree R (g.run M (k + 1) c).2 (g'.turn M c').2

section Simulation

variable {dropped : InstId → Bool} {g g' : Graph} {M : Machine V W}
  {R : Config V W → Config V W → Prop}
variable {c c' : Config V W}

theorem Simulation.of_turn (h : ∀ c c', R c c' →
    (g'.turn M c').1 = kept dropped (g.turn M c).1 ∧ Agree R (g.turn M c).2 (g'.turn M c').2) :
    Simulation dropped g g' M R := by
  intro c c' hR
  refine ⟨0, ?_⟩
  rw [Graph.run_one]
  exact h c c' hR

theorem Simulation.run (h : Simulation dropped g g' M R) (n : Nat) (hR : R c c') :
    ∃ k, n ≤ k ∧ (g'.run M n c').1 = kept dropped (g.run M k c).1 ∧ Agree R (g.run M k c).2
    (g'.run M n c').2 := by
  induction n generalizing c c' with
  | zero => exact ⟨0, Nat.le_refl _, rfl, .going hR⟩
  | succ n ih =>
    obtain ⟨k, hes, hr⟩ := h c c' hR
    cases hrun : g.run M (k + 1) c with
    | mk es r =>
      cases hturn : g'.turn M c' with
      | mk es' r' =>
        rw [hrun, hturn] at hes hr
        cases hr with
        | ended o =>
          refine ⟨k + 1 + n, by omega, ?_⟩
          rw [Graph.run_succ_of_stop hturn, Graph.run_add, hrun, Sum.elim_inr,
            Sum.elim_inr, append_nil]
          exact ⟨hes, .ended o⟩
        | going hd =>
          obtain ⟨k', hk', hes', hr'⟩ := ih hd
          refine ⟨k + 1 + k', by omega, ?_⟩
          rw [Graph.run_succ_of_jump hturn, Graph.run_add, hrun]
          refine ⟨?_, hr'⟩
          have hes₁ : es' = kept dropped es := hes
          rw [hes', hes₁]
          exact (filter_append ..).symm

theorem eq_last_or_mem_init {init pre post : List α} {t l : α}
    (h : init ++ [t] = pre ++ l :: post) : (pre = init ∧ l = t) ∨ ∃ as, init = pre ++ l :: as := by
  rcases eq_nil_or_concat post with rfl | ⟨as, x, rfl⟩
  · obtain ⟨rfl, hl⟩ := append_inj' h rfl
    exact .inl ⟨rfl, (List.cons.inj hl).1.symm⟩
  · have h' : init ++ [t] = (pre ++ l :: as) ++ [x] := by simpa using h
    exact .inr ⟨as, (append_inj' h' rfl).1⟩

theorem Simulation.ends_iff (h : Simulation dropped g g' M R) (hR : R c c') (es : List (Event V))
    (o : Outcome V W) : g'.Ends M c' es o ↔ ∃ es₀, g.Ends M c es₀ o ∧ es = kept dropped es₀ := by
  constructor
  · rintro ⟨n, hn⟩
    obtain ⟨k, -, hes, hr⟩ := h.run n hR
    cases hk : g.run M k c with
    | mk es₀ r =>
      rw [hk, hn] at hes hr
      cases hr with
      | ended => exact ⟨es₀, ⟨k, hk⟩, hes⟩
  · rintro ⟨es₀, ⟨n, hn⟩, rfl⟩
    obtain ⟨k, hk, hes, hr⟩ := h.run n hR
    obtain ⟨j, rfl⟩ := Nat.exists_eq_add_of_le hk
    simp only [Graph.run_add, hn, Sum.elim_inr, append_nil] at hes hr
    cases hn' : g'.run M n c' with
    | mk es' r' =>
      rw [hn'] at hes hr
      cases hr with
      | ended => exact ⟨n, hn'.trans (congrArg (·, _) hes)⟩

theorem Simulation.performs_iff (h : Simulation dropped g g' M R) (hR : R c c')
    (es : List (Event V)) :
    g'.Performs M c' es ↔ ∃ es₀, g.Performs M c es₀ ∧ es = kept dropped es₀ := by
  constructor
  · rintro ⟨n, hn⟩
    obtain ⟨k, -, hes, -⟩ := h.run n hR
    rw [hes] at hn
    obtain ⟨es₀, hpre, rfl⟩ := prefix_filter_iff.mp hn
    exact ⟨es₀, ⟨k, hpre⟩, rfl⟩
  · rintro ⟨es₀, ⟨n, hn⟩, rfl⟩
    obtain ⟨k, hk, hes, -⟩ := h.run n hR
    obtain ⟨j, rfl⟩ := Nat.exists_eq_add_of_le hk
    refine ⟨n, ?_⟩
    rw [hes]
    exact (hn.trans (Graph.run_prefix n j c)).filter _

theorem diverges_iff (h : ∀ es o, g'.Ends M c' es o ↔
    ∃ es₀, g.Ends M c es₀ o ∧ es = kept dropped es₀) : g'.Diverges M c' ↔ g.Diverges M c := by
  constructor
  · intro hd es o he
    exact hd _ o ((h _ o).mpr ⟨es, he, rfl⟩)
  · intro hd es o he
    obtain ⟨es₀, he₀, -⟩ := (h es o).mp he
    exact hd es₀ o he₀

theorem Same.of_simulation (h : ∀ (V W : Type) (M : Machine V W), ∃ R,
    Simulation dropped g g' M R ∧ ∀ args w, R (g.start M args w) (g'.start M args w)) :
      Same dropped g g' := by
  intro V W M args w
  obtain ⟨R, hR, hstart⟩ := h V W M
  have hends := hR.ends_iff (hstart args w)
  exact ⟨hends, hR.performs_iff (hstart args w), diverges_iff hends⟩

end Simulation

theorem kept_none (es : List (Event V)) : kept (fun _ => false) es = es :=
  filter_eq_self.mpr fun _ _ => rfl

theorem kept_kept (p q : InstId → Bool) (es : List (Event V)) :
    kept q (kept p es) = kept (fun i => p i || q i) es := by
  rw [kept, kept, kept, filter_filter]
  refine filter_congr fun e _ => ?_
  cases p e.id <;> cases q e.id <;> rfl

theorem Same.refl (g : Graph) : Same (fun _ => false) g g := by
  intro V W M args w
  refine ⟨fun es o => ?_, fun es => ?_, Iff.rfl⟩ <;> simp [kept_none]

theorem Same.trans {p q : InstId → Bool} {g g' g'' : Graph} (h : Same p g g') (h' : Same q g' g'') :
    Same (fun i => p i || q i) g g'' := by
  intro V W M args w
  obtain ⟨hends, hperforms, hdiverges⟩ := h V W M args w
  obtain ⟨hends', hperforms', hdiverges'⟩ := h' V W M args w
  refine ⟨fun es o => ?_, fun es => ?_, hdiverges'.trans hdiverges⟩
  · rw [hends']
    constructor
    · rintro ⟨es₁, h₁, rfl⟩
      obtain ⟨es₀, h₀, rfl⟩ := (hends _ _).mp h₁
      exact ⟨es₀, h₀, kept_kept ..⟩
    · rintro ⟨es₀, h₀, rfl⟩
      exact ⟨_, (hends _ _).mpr ⟨es₀, h₀, rfl⟩, (kept_kept ..).symm⟩
  · rw [hperforms']
    constructor
    · rintro ⟨es₁, h₁, rfl⟩
      obtain ⟨es₀, h₀, rfl⟩ := (hperforms _).mp h₁
      exact ⟨es₀, h₀, kept_kept ..⟩
    · rintro ⟨es₀, h₀, rfl⟩
      exact ⟨_, (hperforms _).mpr ⟨es₀, h₀, rfl⟩, (kept_kept ..).symm⟩

end Midlevel.Flow
