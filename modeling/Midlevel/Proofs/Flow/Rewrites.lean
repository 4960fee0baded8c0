import Midlevel.Proofs.Flow.Available

/-!
Rewrites of graphs that an observer cannot tell: changing what cannot be reached, dropping a literal
that nobody reads, deciding a branch on a literal and going past a block that only branches on. Each
of them keeps the runs, and a certificate of what is known where.
-/

namespace Midlevel.Flow

open Ir List Machine Midlevel.Flow.Graph
open Pass (Exit)

variable {g g' : Graph} {av : Avail}
variable {b c : BlockId} {α : Type}

def nothing : InstId → Bool := fun _ => false

/-! ### What cannot be reached -/

/-- The graphs have the same entry and the same blocks that can be reached. -/
structure AgreeOnReachable (g g' : Graph) : Prop where
  entry : g'.entry = g.entry
  params : ∀ b, g.Reachable b → g'.params b = g.params b
  lines : ∀ b, g.Reachable b → g'.lines b = g.lines b

namespace AgreeOnReachable

variable (h : AgreeOnReachable g g')
include h

theorem walk {bs : List BlockId} (hw : g'.Walk bs b) : g.Walk bs b := by
  induction hw with
  | start =>
    rw [h.entry]
    exact .start
  | step _ ht ih =>
    obtain ⟨l, hl, hx⟩ := ht
    rw [h.lines _ ⟨_, ih⟩] at hl
    exact ih.step ⟨l, hl, hx⟩

theorem reachable (hb : g'.Reachable b) : g.Reachable b := by
  obtain ⟨bs, hbs⟩ := hb
  exact ⟨bs, h.walk hbs⟩

theorem same : Same nothing g g' := by
  refine .of_simulation fun V W M => ⟨fun c c' => c' = c ∧ g.Reachable c.block, .of_turn ?_, ?_⟩
  · rintro c c' ⟨rfl, hb⟩
    rw [Graph.turn, Graph.turn, h.lines _ hb]
    refine ⟨(kept_none _).symm, ?_⟩
    cases hleave : (M.exec (g.lines c'.block) c'.env c'.world).2 with
    | stop o => exact .ended o
    | jump t args env w =>
      have ht : g.Reachable t := hb.step (exec_jump_leads hleave)
      simp only [enter, h.params t ht]
      exact .going ⟨rfl, ht⟩
  · intro args w
    refine ⟨?_, .entry g⟩
    rw [start, start, h.entry, h.params _ (.entry g)]

theorem available (ha : Available g av) : Available g' av where
  entry v := h.entry ▸ ha.entry v
  edge b hb t ht v hv := by
    have hb' := h.reachable hb
    have hlines := h.lines b hb'
    have hparams := h.params b hb'
    rw [Graph.Leads, hlines] at ht
    rw [Graph.Defines, hlines, hparams]
    exact ha.edge b hb' t ht v hv
  reads b hb before l after hl v hv := by
    have hb' := h.reachable hb
    rw [h.lines b hb'] at hl
    rw [Known, h.params b hb']
    exact ha.reads b hb' before l after hl v hv

end AgreeOnReachable

/-! ### Literals that nobody reads -/

/-- Line `i`, a literal that nobody reads, is taken out. -/
structure DropsLiteral (g g' : Graph) (i : InstId) : Prop where
  entry : g'.entry = g.entry
  params : g'.params = g.params
  lines : ∀ b, g'.lines b = (g.lines b).filter (·.id ≠ i)
  literal : ∀ b, ∀ l ∈ g.lines b, l.id = i → l.op = .boolLiteral ∧ l.exits = []
  unread : ∀ b, ∀ l ∈ g.lines b, some (.inst i) ∉ l.values

section DropsLiteral

variable {V W : Type} {i : InstId}

theorem kept_cons_of_ne {e : Event V} {es : List (Event V)} (h : e.id ≠ i) :
    kept (· == i) (e :: es) = e :: kept (· == i) es := filter_cons_of_pos (by simpa using h)

theorem exec_filter (M : Machine V W) {ls : List Line}
    (hliteral : ∀ l ∈ ls, l.id = i → l.op = .boolLiteral)
    (hunread : ∀ l ∈ ls, some (.inst i) ∉ l.values)
    {env env' : Env V} (hE : AgreeOff (· = .inst i) env env') (w : W) :
    (M.exec (ls.filter (·.id ≠ i)) env' w).1 = kept (· == i) (M.exec ls env w).1 ∧
      Machine.LeaveAlike (AgreeOff (· = .inst i)) (M.exec ls env w).2
      (M.exec (ls.filter (·.id ≠ i)) env' w).2 := by
  induction ls generalizing env env' w with
  | nil => exact ⟨rfl, .stop _⟩
  | cons l ls ih =>
    have ih' := @ih (forall_mem_cons.mp hliteral).2 (forall_mem_cons.mp hunread).2
    by_cases hi : l.id = i
    · have hop := hliteral l mem_cons_self hi
      have hperform : M.exec (l :: ls) env w =
          (event l env :: (M.exec ls (env.set (.inst l.id) (M.bool l.payload.bool)) w).1,
            (M.exec ls (env.set (.inst l.id) (M.bool l.payload.bool)) w).2) := by
        rw [exec, if_neg (by simp [hop, Opcode.isTerminator]), perform, if_pos hop]
      rw [filter_cons_of_neg (by simpa using hi), hperform, kept,
        filter_cons_of_neg (by simp [event, hi])]
      refine ih' (fun v hv => ?_) w
      rw [Env.set, Function.update_of_ne (hi ▸ hv)]
      exact hE v hv
    · obtain ⟨hreads, hexits⟩ := hE.reads fun x hx hxi => hunread l mem_cons_self (hxi ▸ hx)
      rw [filter_cons_of_pos (by simpa using hi), exec, exec]
      split
      · exact ⟨rfl, leave_alike hE rfl hreads hexits w⟩
      · rw [hreads]
        have hevent : event l env' = event l env := by
          rw [event, event, hreads]
        rw [hevent]
        split
        · next x w' _ =>
          obtain ⟨h₁, h₂⟩ := ih' (hE.set (.inst l.id) x) w'
          exact ⟨(congrArg (event l env :: ·) h₁).trans (kept_cons_of_ne hi).symm, h₂⟩
        · have hlast : kept (· == i) [event l env] = [event l env] := kept_cons_of_ne hi
          exact ⟨hlast.symm, .stop _⟩

theorem DropsLiteral.same (h : DropsLiteral g g' i) : Same (· == i) g g' := by
  refine .of_simulation fun V W M => ⟨fun c c' => c'.block = c.block ∧ c'.world = c.world ∧
    AgreeOff (· = .inst i) c.env c'.env, .of_turn ?_, ?_⟩
  · rintro c c' ⟨hb, hw, hE⟩
    rw [Graph.turn, hb, hw, h.lines]
    obtain ⟨hes, hleave⟩ := exec_filter M (fun l hl hi => (h.literal _ l hl hi).1)
      (h.unread c.block) hE c.world
    refine ⟨hes, hleave.enter fun t args env env' w _ hE' => ⟨rfl, rfl, ?_⟩⟩
    rw [h.params]
    exact hE'.bind _ _
  · intro args w
    rw [start, h.entry, h.params]
    exact ⟨rfl, rfl, fun _ _ => rfl⟩

theorem DropsLiteral.leads (h : DropsLiteral g g' i) {t : BlockId} (ht : g'.Leads b t) :
    g.Leads b t := by
  obtain ⟨l, hl, hx⟩ := ht
  rw [h.lines] at hl
  exact ⟨l, (mem_filter.mp hl).1, hx⟩

theorem DropsLiteral.reachable (h : DropsLiteral g g' i) (hb : g'.Reachable b) : g.Reachable b := by
  obtain ⟨bs, hbs⟩ := hb
  induction hbs with
  | start =>
    rw [h.entry]
    exact .entry g
  | step _ ht ih => exact ih.step (h.leads ht)

theorem eq_append_of_filter_eq {p : α → Bool} {xs before after : List α} {x : α}
    (h : xs.filter p = before ++ x :: after) :
    ∃ before' after', xs = before' ++ x :: after' ∧ before = before'.filter p := by
  obtain ⟨ys, zs, rfl, hys, hzs⟩ := filter_eq_append_iff.mp h
  obtain ⟨us, vs, rfl, hus, -, -⟩ := filter_eq_cons_iff.mp hzs
  refine ⟨ys ++ us, vs, by simp, ?_⟩
  rw [filter_append, hys, filter_eq_nil_iff.mpr hus, append_nil]

theorem DropsLiteral.available (h : DropsLiteral g g' i) (ha : Available g av) :
    Available g' fun b v => av b v ∧ v ≠ .inst i where
  entry v hv := ha.entry v (h.entry ▸ hv.1)
  edge b hb t ht v hv := by
    rcases ha.edge b (h.reachable hb) t (h.leads ht) v hv.1 with hv' | hv' | ⟨l, hl, hterm, rfl⟩
    · exact .inl ⟨hv', hv.2⟩
    · exact .inr (.inl (h.params ▸ hv'))
    · refine .inr (.inr ⟨l, ?_, hterm, rfl⟩)
      rw [h.lines, mem_filter]
      exact ⟨hl, by simpa using fun he => hv.2 (congrArg Value.inst he)⟩
  reads b hb before l after hl v hv := by
    rw [h.lines] at hl
    obtain ⟨before', after', hl', rfl⟩ := eq_append_of_filter_eq hl
    have hv' : v ≠ .inst i := fun he => h.unread b l (by simp [hl']) (he ▸ hv)
    rcases ha.reads b (h.reachable hb) _ l _ hl' v hv with hc | hk | hp | ⟨k, hk, hterm, rfl⟩
    · exact .inl hc
    · exact .inr (.inl ⟨hk, hv'⟩)
    · exact .inr (.inr (.inl (h.params ▸ hp)))
    · refine .inr (.inr (.inr ⟨k, mem_filter.mpr ⟨hk, ?_⟩, hterm, rfl⟩))
      simpa using fun he => hv' (congrArg Value.inst he)

end DropsLiteral

/-! ### Another way out of a block -/

structure Reends (g g' : Graph) (b : BlockId) (init : List Line) (t t' : Line) : Prop where
  entry : g'.entry = g.entry
  params : g'.params = g.params
  others : ∀ c, c ≠ b → g'.lines c = g.lines c
  before : Ending (g.lines b) init t
  after : Ending (g'.lines b) init t'

section Reends

variable {init : List Line} {t t' : Line}

namespace Reends

variable (h : Reends g g' b init t t')
include h

theorem reachable (hexits : g.Reachable b → ∀ x ∈ t'.exits, ∀ u, x.target = some u → g.Reachable u)
    (hc : g'.Reachable c) : g.Reachable c := by
  obtain ⟨bs, hbs⟩ := hc
  induction hbs with
  | start =>
    rw [h.entry]
    exact .entry g
  | @step _ d u _ ht ih =>
    obtain ⟨l, hl, x, hx, hu⟩ := ht
    by_cases hd : d = b
    · subst hd
      rw [h.after.eq, mem_append, mem_singleton] at hl
      rcases hl with hl | rfl
      · refine ih.step ⟨l, ?_, x, hx, hu⟩
        rw [h.before.eq]
        exact mem_append_left _ hl
      · exact hexits ih x hx u hu
    · rw [h.others d hd] at hl
      exact ih.step ⟨l, hl, x, hx, hu⟩

theorem defines (c : BlockId) (v : Value) : g'.Defines c v ↔ g.Defines c v := by
  by_cases hc : c = b
  · subst hc
    rw [h.after.defines, h.before.defines, h.params]
  · rw [Graph.Defines, Graph.Defines, h.others c hc, h.params]

/-- A certificate stays good if the new exits and what the new line reads agree with it. -/
theorem available (ha : Available g av)
    (hexits : g.Reachable b → ∀ x ∈ t'.exits, ∀ u, x.target = some u →
      g.Reachable u ∧ ∀ v, av u v → av b v ∨ g.Defines b v)
    (hreads : g.Reachable b → ∀ v, some v ∈ t'.values → Known g av b init v) : Available g' av := by
  have hreach : ∀ {c}, g'.Reachable c → g.Reachable c :=
    h.reachable fun hb x hx u hu => (hexits hb x hx u hu).1
  have hknown : ∀ c before v, Known g av c before v → Known g' av c before v :=
      fun c before v hk => by
    rwa [Known, h.params]
  refine ⟨fun v => h.entry ▸ ha.entry v, fun c hc u hu v hv => ?_,
    fun c hc pre l post hl v hv => ?_⟩
  · rw [h.defines]
    obtain ⟨l, hl, x, hx, hxu⟩ := hu
    by_cases hcb : c = b
    · subst hcb
      rw [h.after.eq, mem_append, mem_singleton] at hl
      rcases hl with hl | rfl
      · refine ha.edge c (hreach hc) u ⟨l, ?_, x, hx, hxu⟩ v hv
        rw [h.before.eq]
        exact mem_append_left _ hl
      · exact (hexits (hreach hc) x hx u hxu).2 v hv
    · rw [h.others c hcb] at hl
      exact ha.edge c (hreach hc) u ⟨l, hl, x, hx, hxu⟩ v hv
  · apply hknown
    by_cases hcb : c = b
    · subst hcb
      rw [h.after.eq] at hl
      rcases eq_last_or_mem_init hl with ⟨rfl, rfl⟩ | ⟨as, has⟩
      · exact hreads (hreach hc) v hv
      · refine ha.reads c (hreach hc) pre l (as ++ [t]) ?_ v hv
        rw [h.before.eq, has]
        simp
    · rw [h.others c hcb] at hl
      exact ha.reads c (hreach hc) pre l post hl v hv

end Reends

end Reends

/-- A block branches on a literal, whose value is `p`; now it goes where the literal says. -/
structure DecidesBranch (g g' : Graph) (b : BlockId) (init : List Line) (t t' : Line) (lit : InstId)
    (p : Bool) : Prop extends Reends g g' b init t t' where
  cond : t.op = .condBr
  reads : t.reads.head? = some (some (.inst lit))
  br : t'.op = .br
  noReads : t'.reads = []
  taken : ∃ x, t'.exits = [x] ∧ (if p then t.exits[0]? else t.exits[1]?) = some x
  literal : ∀ c, ∀ l ∈ g.lines c, l.id = lit → l.op = .boolLiteral ∧ l.payload.bool = p

section DecidesBranch

variable {V W : Type} {M : Machine V W} {init : List Line} {t t' : Line} {lit : InstId}
  {p : Bool}

theorem literal_at_end (hliteral : ∀ l ∈ g.lines c, l.id = lit → l.op = .boolLiteral ∧
    l.payload.bool = p)
    (hend : Ending (g.lines c) init t) {env env' : Env V} {w w' : W} {es : List (Event V)}
    (hinv : av c (.inst lit) → env (.inst lit) = some (M.bool p))
    (h : M.straight init env w = (es, .ok (env', w')))
    (hk : av c (.inst lit) ∨ g.Defines c (.inst lit)) :
    env' (.inst lit) = some (M.bool p) := by
  refine straight_results h (· = some (M.bool p)) (fun l hl hid vs w₀ x w₁ hperform => ?_) ?_
  · have hmem : l ∈ g.lines c := by
      rw [hend.eq]
      exact mem_append_left _ hl
    obtain ⟨hop, hp⟩ := hliteral l hmem (Value.inst.inj hid).symm
    rw [perform, if_pos hop, hp] at hperform
    exact congrArg some (Effect.next.inj hperform).1.symm
  · refine hk.imp hinv fun hd => ?_
    rcases hend.defines.mp hd with ⟨q, -, hq⟩ | hd
    · cases hq
    · exact hd

namespace DecidesBranch

variable (h : DecidesBranch g g' b init t t' lit p)
include h

theorem leave {env : Env V}
    (henv : env (.inst lit) = some (M.bool p)) (w : W) : M.leave t' env w = M.leave t env w := by
  obtain ⟨x, hx, htaken⟩ := h.taken
  have hcond : t.reads.head?.bind env.read = some (M.bool p) := by
    rw [h.reads]
    exact henv
  rw [Machine.leave, Machine.leave, h.br, h.cond]
  simp only [hcond, M.truth_bool, htaken, hx, List.getElem?_cons_zero]

theorem exec (ha : Available g av) {c : Config V W} (hc : g.Reachable c.block)
    (hinv : av c.block (.inst lit) → c.env (.inst lit) = some (M.bool p)) :
    M.exec (g'.lines c.block) c.env c.world = M.exec (g.lines c.block) c.env c.world := by
  by_cases hcb : c.block = b
  · rw [hcb] at hc hinv ⊢
    have hread : some (.inst lit) ∈ t.values :=
      mem_append_left _ (mem_of_mem_head? (Option.mem_def.mpr h.reads))
    have hknown : Known g av b init (.inst lit) := ha.reads b hc init t [] h.before.eq _ hread
    rw [h.after.exec, h.before.exec]
    split
    · next es env w heq =>
      refine congrArg (es, ·) (h.leave (literal_at_end (h.literal b) h.before hinv heq ?_) w)
      exact (h.before.known_iff.mp hknown).resolve_left id
    · rfl
  · rw [h.others _ hcb]

theorem same (ha : Available g av)
    (hends : ∀ c, g.Reachable c → ∃ init t, Ending (g.lines c) init t) : Same nothing g g' := by
  refine .of_simulation fun V W M => ⟨fun c c' => c' = c ∧ g.Reachable c.block ∧
    (av c.block (.inst lit) → c.env (.inst lit) = some (M.bool p)), .of_turn ?_, ?_⟩
  · rintro c c' ⟨rfl, hc, hinv⟩
    rw [Graph.turn, Graph.turn, h.exec ha hc hinv]
    refine ⟨(kept_none _).symm, ?_⟩
    obtain ⟨init₀, t₀, hend⟩ := hends _ hc
    cases hleave : (M.exec (g.lines c'.block) c'.env c'.world).2 with
    | stop o => exact .ended o
    | jump u args env w =>
      obtain ⟨⟨es, hes⟩, x, hx, hu⟩ := hend.exec_jump hleave
      have hlead : g.Leads c'.block u := ⟨t₀, hend.mem_last, x, hx, hu⟩
      simp only [enter, h.params]
      refine .going ⟨rfl, hc.step hlead, fun hv => ?_⟩
      show env (.inst lit) = _
      exact literal_at_end (h.literal _) hend hinv hes (ha.edge _ hc u hlead _ hv)
  · intro args w
    rw [start, h.entry, h.params]
    exact ⟨rfl, .entry g, fun hv => absurd hv (ha.entry _)⟩

theorem exit_mem {x : Exit} (hx : x ∈ t'.exits) : x ∈ t.exits := by
  obtain ⟨y, hy, htaken⟩ := h.taken
  rw [hy, mem_singleton] at hx
  subst hx
  split at htaken <;> exact mem_of_getElem? htaken

theorem available (ha : Available g av) : Available g' av := by
  refine h.toReends.available ha (fun hb x hx u hu => ?_) fun hb v hv => ?_
  · have hlead : g.Leads b u := ⟨t, h.before.mem_last, x, h.exit_mem hx, hu⟩
    exact ⟨hb.step hlead, ha.edge b hb u hlead⟩
  · refine ha.reads b hb init t [] h.before.eq v ?_
    rw [Line.values, h.noReads, nil_append, mem_flatMap] at hv
    obtain ⟨x, hx, hvx⟩ := hv
    exact mem_append_right _ (mem_flatMap.mpr ⟨x, h.exit_mem hx, hvx⟩)

end DecidesBranch

end DecidesBranch

/-- Instead of to `q`, which does nothing but branch on, a block branches to where `q` does. -/
structure Bypasses (g g' : Graph) (b : BlockId) (init : List Line) (t t' : Line) (q : BlockId)
    (l : Line) (forward : Exit) : Prop extends Reends g g' b init t t' where
  op : t'.op = t.op
  /-- What an unconditional branch reads does not matter. -/
  reads : t'.reads = t.reads ∨ t.op = .br ∧ t'.reads = []
  exits : t'.exits = t.exits.map fun x => if x.target = some q then forward else x
  noParams : g.params q = []
  line : g.lines q = [l]
  br : l.op = .br
  exit : l.exits.head? = some forward

section Bypasses

variable {V W : Type} {M : Machine V W} {q : BlockId} {init : List Line} {t t' l : Line}
  {forward : Exit}

theorem Bypasses.leave (h : Bypasses g g' b init t t' q l forward) (env : Env V) (w : W) :
    (∃ args, M.leave t env w = .jump q args env w ∧ M.leave t' env w = M.leave l env w) ∨
      M.leave t' env w = M.leave t env w := by
  have htake : ∀ n : Nat,
      (∃ args, take t.exits[n]? env w = .jump q args env w ∧
        take t'.exits[n]? env w = M.leave l env w) ∨
      take t'.exits[n]? env w = take t.exits[n]? env w := by
    intro n
    rw [Machine.leave, h.br, ← List.head?_eq_getElem?, h.exit, h.exits, List.getElem?_map]
    cases t.exits[n]? with
    | none => exact .inr rfl
    | some x =>
      rw [Option.map_some]
      split
      · next hx =>
        refine .inl ⟨x.args.map env.read, ?_, rfl⟩
        obtain ⟨target, args⟩ := x
        obtain rfl : target = some q := hx
        rfl
      · exact .inr rfl
  rcases h.reads with hreads | ⟨hbr, -⟩
  · rw [Machine.leave, Machine.leave, h.op, hreads]
    split
    · exact htake 0
    · split
      · split
        · exact htake 0
        · exact htake 1
      · exact .inr rfl
    all_goals exact .inr rfl
  · rw [Machine.leave, Machine.leave, h.op, hbr]
    exact htake 0

theorem Env.bind_nil (env : Env V) (vs : List (Option V)) : env.bind [] vs = env :=
  funext fun _ => env.bind_of_not_mem vs (by simp)

namespace Bypasses

variable (h : Bypasses g g' b init t t' q l forward)
include h

theorem turn (c : Config V W) : g'.turn M c = g.turn M c ∨ g'.turn M c = g.run M 2 c := by
  have henter : ∀ a : Leave V W, g'.enter a = g.enter a := fun a => by
    cases a with
    | stop o => rfl
    | jump u args env w => rw [enter, enter, h.params]
  by_cases hcb : c.block = b
  · have hexec := h.before.exec M c.env c.world
    have hexec' := h.after.exec M c.env c.world
    rw [Graph.turn, Graph.turn, henter, hcb, hexec']
    split
    · next es env w heq =>
      have hexec₁ : M.exec (g.lines b) c.env c.world = (es, M.leave t env w) := by rw [hexec, heq]
      rcases h.leave env w with ⟨args, hjump, hl⟩ | hsame
      · refine .inr ?_
        have hfirst : g.turn M c = (es, .inl ⟨q, env, w⟩) := by
          rw [Graph.turn, hcb, hexec₁, hjump]
          simp only [enter, h.noParams, Env.bind_nil]
        have hsecond : g.turn M ⟨q, env, w⟩ = ([], g.enter (M.leave l env w)) := by
          rw [Graph.turn, h.line, exec_terminator (by rw [h.br]; rfl)]
        rw [run_succ_of_jump hfirst, run_one, hsecond, append_nil, hl]
      · refine .inl ?_
        rw [hexec₁, hsame]
    · next es w heq =>
      refine .inl ?_
      rw [hexec, heq]
  · rw [Graph.turn, h.others _ hcb, henter]
    exact .inl rfl

theorem same : Same nothing g g' := by
  refine .of_simulation fun V W M => ⟨fun c c' => c' = c, ?_, ?_⟩
  · rintro c c' rfl
    have hagree : ∀ r : Config V W ⊕ Outcome V W, Agree (fun c c' => c' = c) r r := fun r => by
      cases r with
      | inl d => exact .going rfl
      | inr o => exact .ended o
    rcases h.turn c' with hturn | hturn
    · refine ⟨0, ?_⟩
      rw [run_one, hturn]
      exact ⟨(kept_none _).symm, hagree _⟩
    · refine ⟨1, ?_⟩
      rw [hturn]
      exact ⟨(kept_none _).symm, hagree _⟩
  · intro args w
    rw [start, start, h.entry, h.params]

theorem available (ha : Available g av) : Available g' av := by
  -- What is known in `q` was known at the end of `b`, as `q` itself adds nothing.
  have hleads : ∀ x ∈ t.exits, ∀ u, x.target = some u → g.Leads b u := fun x hx u hu =>
    ⟨t, h.before.mem_last, x, hx, hu⟩
  have hline : l ∈ g.lines q := by simp [h.line]
  have hterm : l.op.isTerminator = true := by rw [h.br]; rfl
  have hnone : ∀ v, ¬ g.Defines q v := by
    rintro v (⟨p, hp, -⟩ | ⟨k, hk, hkterm, -⟩)
    · simp [h.noParams] at hp
    · rw [h.line, mem_singleton] at hk
      rw [hk, hterm] at hkterm
      cases hkterm
  have hexit : forward ∈ l.exits := mem_of_mem_head? (Option.mem_def.mpr h.exit)
  refine h.toReends.available ha (fun hb x hx u hu => ?_) fun hb v hv => ?_
  · rw [h.exits, mem_map] at hx
    obtain ⟨y, hy, rfl⟩ := hx
    split at hu
    · next hyq =>
      have hq := hleads y hy q hyq
      have hqu : g.Leads q u := ⟨l, hline, forward, hexit, hu⟩
      refine ⟨(hb.step hq).step hqu, fun v hv => ?_⟩
      exact ha.edge b hb q hq v ((ha.edge q (hb.step hq) u hqu v hv).resolve_right (hnone v))
    · have hbu := hleads y hy u hu
      exact ⟨hb.step hbu, ha.edge b hb u hbu⟩
  · have hold : some v ∈ t.values → Known g av b init v := ha.reads b hb init t [] h.before.eq v
    rw [Line.values, h.exits, mem_append] at hv
    rcases hv with hv | hv
    · rcases h.reads with hreads | ⟨-, hnil⟩
      · exact hold (mem_append_left _ (hreads ▸ hv))
      · exact absurd (hnil ▸ hv) not_mem_nil
    · obtain ⟨x, hx, hvx⟩ := mem_flatMap.mp hv
      obtain ⟨y, hy, rfl⟩ := mem_map.mp hx
      split at hvx
      · next hyq =>
        have hq := hleads y hy q hyq
        have hvl : some v ∈ l.values :=
          mem_append_right _ (mem_flatMap.mpr ⟨forward, hexit, hvx⟩)
        rcases ha.reads q (hb.step hq) [] l [] h.line v hvl with hc | hv | ⟨p, hp, -⟩ | ⟨k, hk, -⟩
        · exact .inl hc
        · exact h.before.known_iff.mpr (.inr (ha.edge b hb q hq v hv))
        · simp [h.noParams] at hp
        · cases hk
      · exact hold (mem_append_right _ (mem_flatMap.mpr ⟨y, hy, hvx⟩))

end Bypasses

end Bypasses

end Midlevel.Flow
