import Midlevel.Proofs.Flow.Rewrites

/-!
Merging a block into the block before it. The arguments of the branch between them take the place of
the parameters, everywhere in the graph. That this is right rests on dominance: where a parameter is
known, the argument that was passed for it is known as well and still has the value it had when the
branch was taken, since the block that defines it cannot have been entered again.
-/

namespace Midlevel.Flow

open Ir List Midlevel.Flow.Graph
open Pass (Exit)

variable {v v' : Value} {b : BlockId} {l : Line} {ps : List ParamId}
  {ini before before' : List Line}

def Line.mapValues (l : Line) (f : Option Value → Option Value) : Line :=
  { l with reads := l.reads.map f, exits := l.exits.map fun x => { x with args := x.args.map f } }

/-- Block `s`, which is entered from the end of `p` only, is appended to `p`. -/
structure Merges (g g' : Graph) (p s : BlockId) (init : List Line) (t : Line) (args : List Value)
    (f : Option Value → Option Value) : Prop where
  entry : g'.entry = g.entry
  params : g'.params = g.params
  lines : ∀ b, g'.lines b = if b = s then [] else
    (if b = p then init ++ g.lines s else g.lines b).map (·.mapValues f)
  ne : p ≠ s
  notEntry : s ≠ g.entry
  before : Ending (g.lines p) init t
  plain : ∀ l ∈ init, l.exits = []
  br : t.op = .br
  exits : t.exits = [⟨some s, args.map some⟩]
  sole : ∀ b, g.Reachable b → g.Leads b s → b = p
  count : args.length = (g.params s).length
  nodup : (g.params s).Nodup
  none : f none = none
  other : ∀ v, (∀ q ∈ g.params s, v ≠ .param q) → f (some v) = some v
  /-- The arguments take the place of the parameters, unless they are parameters themselves. -/
  param : (∀ a ∈ args, ∀ q ∈ g.params s, a ≠ .param q) →
    ∀ x ∈ (g.params s).zip args, f (some (.param x.1)) = some x.2

variable {g g' : Graph} {av : Avail} {p s : BlockId} {init : List Line} {t : Line}
  {args : List Value} {f : Option Value → Option Value}

namespace Merges

variable (h : Merges g g' p s init t args f)
variable {q : ParamId}

include h

theorem leads : g.Leads p s := by
  refine ⟨t, h.before.mem_last, ⟨some s, args.map some⟩, ?_, rfl⟩
  rw [h.exits]
  exact mem_cons_self

theorem walk_to {bs : List BlockId} (hw : g.Walk bs s) : ∃ ds, bs = p :: ds ∧ g.Walk ds p := by
  generalize hs : s = b at hw
  cases hw with
  | start => exact absurd hs h.notEntry
  | @step ds d _ hd ht =>
    subst hs
    obtain rfl := h.sole d ⟨ds, hd⟩ ht
    exact ⟨ds, rfl, hd⟩

theorem exists_walk (hp : g.Reachable p) : ∃ bs, g.Walk bs p ∧ s ∉ bs := by
  obtain ⟨bs, hbs⟩ := hp
  induction hn : bs.length using Nat.strongRecOn generalizing bs with
  | ind n ih =>
    by_cases hs : s ∈ bs
    · obtain ⟨ds, hds, hlt⟩ := hbs.of_mem hs
      obtain ⟨es, rfl, hes⟩ := h.walk_to hds
      refine ih es.length ?_ es hes rfl
      rw [length_cons] at hlt
      omega
    · exact ⟨bs, hbs, hs⟩

theorem exists_pair (hq : q ∈ g.params s) : ∃ a, (q, a) ∈ (g.params s).zip args := by
  obtain ⟨k, hk, rfl⟩ := mem_iff_getElem.mp hq
  have hk' : k < args.length := h.count ▸ hk
  refine ⟨args[k], mem_iff_getElem.mpr ⟨k, ?_, getElem_zip⟩⟩
  rw [length_zip]
  exact Nat.lt_min.mpr ⟨hk, hk'⟩

end Merges

/-- The merge of a block that can be reached, in a graph where it is known which values are. -/
structure Merging (g g' : Graph) (av : Avail) (p s : BlockId) (init : List Line) (t : Line)
    (args : List Value) (f : Option Value → Option Value) :
    Prop extends Merges g g' p s init t args f where
  unique : g.Unique
  known : Available g av
  reached : g.Reachable p

namespace Merging

variable (h : Merging g g' av p s init t args f)
variable {a : Value} {q : ParamId}

include h

theorem not_avail (hv : g.Defines s v) : ¬ av p v := by
  intro hav
  obtain ⟨bs, hbs, hs⟩ := h.exists_walk h.reached
  obtain ⟨d, hd, hdv⟩ := h.known.defined_on_walk hbs hav
  exact hs (h.unique.defines hdv hv ▸ hd)

theorem arg_known (hmem : a ∈ args) : Constant a ∨ av p a ∨ g.Defines p a := by
  refine h.before.known_iff.mp (h.known.reads p h.reached init t [] h.before.eq a ?_)
  refine mem_append_right _ (mem_flatMap.mpr ⟨⟨some s, args.map some⟩, ?_, ?_⟩)
  · rw [h.exits]
    exact mem_cons_self
  · exact mem_map_of_mem hmem

theorem arg_not_defined (hmem : a ∈ args) : ¬ g.Defines s a := by
  intro hs
  rcases h.arg_known hmem with hc | hav | hdef
  · exact hs.not_constant hc
  · exact h.not_avail hs hav
  · exact h.ne (h.unique.defines hdef hs)

/-- Where a parameter of `s` is known, the argument is not defined again: a walk there passes `p`
and so, before that, the block that defines the argument. -/
theorem not_redefined (hq : q ∈ g.params s) (hmem : a ∈ args)
    (hb : g.Reachable b) (hav : av b (.param q)) : ¬ g.Defines b a := by
  intro hdef
  obtain ⟨bs, hbs⟩ := hb
  induction hn : bs.length using Nat.strongRecOn generalizing bs with
  | ind n ih =>
    obtain ⟨d, hd, hdq⟩ := h.known.defined_on_walk hbs hav
    obtain rfl : d = s := h.unique.defines hdq (.inl ⟨q, hq, rfl⟩)
    obtain ⟨ds, hds, hlt⟩ := hbs.of_mem hd
    obtain ⟨es, rfl, hes⟩ := h.walk_to hds
    rw [length_cons] at hlt
    rcases h.arg_known hmem with hc | hav' | hdef'
    · exact hdef.not_constant hc
    · obtain ⟨e, he, hea⟩ := h.known.defined_on_walk hes hav'
      obtain rfl := h.unique.defines hea hdef
      obtain ⟨fs, hfs, hlt'⟩ := hes.of_mem he
      exact ih fs.length (by omega) fs hfs rfl
    · obtain rfl := h.unique.defines hdef' hdef
      exact ih es.length (by omega) es hes rfl

/-! ### What is read -/

theorem arg_ne_param (hmem : a ∈ args) (hq : q ∈ g.params s) : a ≠ .param q := by
  rintro rfl
  exact h.arg_not_defined hmem (.inl ⟨q, hq, rfl⟩)

theorem substitute {x : ParamId × Value} (hx : x ∈ (g.params s).zip args) :
    f (some (.param x.1)) = some x.2 :=
  h.param (fun _ hmem _ hq => h.arg_ne_param hmem hq) x hx

end Merging

/-- The environments of the two graphs where the parameters `K` of `s` are known: they agree but for
those parameters, and the parameters have the values of their arguments. -/
structure Merged {V : Type} (ps : List ParamId) (args : List Value) (K : ParamId → Prop)
    (env env' : Env V) : Prop where
  off : AgreeOff (fun v => ∃ q ∈ ps, v = .param q) env env'
  passed : ∀ x ∈ ps.zip args, K x.1 → env (.param x.1) = env x.2

section Merged

variable {V W : Type} {K : ParamId → Prop} {env env' : Env V}

namespace Merging

variable (h : Merging g g' av p s init t args f)

include h

/-- A value reads the same after the substitution if, being a parameter of `s`, it is known. -/
theorem read (hE : Merged (g.params s) args K env env') {v : Option Value}
    (hv : ∀ q ∈ g.params s, v = some (.param q) → K q) : env'.read (f v) = env.read v := by
  cases v with
  | none => rw [h.none]; rfl
  | some v =>
    by_cases hparam : ∃ q ∈ g.params s, v = .param q
    · obtain ⟨q, hq, rfl⟩ := hparam
      obtain ⟨a, hqa⟩ := h.exists_pair hq
      have hmem : a ∈ args := (of_mem_zip hqa).2
      rw [h.substitute hqa]
      show env' a = env (.param q)
      rw [hE.passed _ hqa (hv q hq rfl)]
      refine hE.off a ?_
      rintro ⟨r, hr, rfl⟩
      exact h.arg_ne_param hmem hr rfl
    · rw [h.other v fun q hq he => hparam ⟨q, hq, he⟩]
      exact hE.off v hparam

theorem reads (hE : Merged (g.params s) args K env env')
    (hl : ∀ q ∈ g.params s, some (.param q) ∈ l.values → K q) :
    (l.mapValues f).reads.map env'.read = l.reads.map env.read ∧
      (l.mapValues f).exits.map (Machine.passes env') = l.exits.map (Machine.passes env) := by
  have hread : ∀ v, v ∈ l.values → env'.read (f v) = env.read v := fun v hv =>
    h.read hE fun q hq he => hl q hq (he ▸ hv)
  constructor
  · rw [Line.mapValues, map_map]
    exact map_congr_left fun v hv => hread v (mem_append_left _ hv)
  · rw [Line.mapValues, map_map]
    refine map_congr_left fun x hx => Prod.ext rfl ?_
    show (x.args.map f).map env'.read = x.args.map env.read
    rw [map_map]
    exact map_congr_left fun v hv =>
      hread v (mem_append_right _ (mem_flatMap.mpr ⟨x, hx, hv⟩))

end Merging

theorem Merged.set (hE : Merged ps args K env env')
    (hv : ∀ x ∈ ps.zip args, K x.1 → .param x.1 ≠ v ∧ x.2 ≠ v) (x : V) :
    Merged ps args K (env.set v x) (env'.set v x) := by
  refine ⟨hE.off.set v x, fun y hy hK => ?_⟩
  obtain ⟨h₁, h₂⟩ := hv y hy hK
  rw [Env.set, Function.update_of_ne h₁, Function.update_of_ne h₂]
  exact hE.passed y hy hK

theorem Merged.bind {K' : ParamId → Prop} (hE : Merged ps args K env env') (rs : List ParamId)
    (vs : List (Option V))
    (hK : ∀ x ∈ ps.zip args, K' x.1 → K x.1 ∧ x.1 ∉ rs ∧ ∀ r ∈ rs, x.2 ≠ .param r) :
    Merged ps args K' (env.bind rs vs) (env'.bind rs vs) := by
  refine ⟨hE.off.bind rs vs, fun y hy hy' => ?_⟩
  obtain ⟨h₁, h₂, h₃⟩ := hK y hy hy'
  have hne : ∀ r ∈ rs, Value.param y.1 ≠ .param r := fun r hr he => h₂ (Value.param.inj he ▸ hr)
  rw [Env.bind_of_not_mem _ _ hne, Env.bind_of_not_mem _ _ h₃]
  exact hE.passed y hy h₁

/-! ### Runs -/

theorem Ending.mapValues {ls : List Line} (h : Ending ls init l) (f : Option Value → Option Value) :
    Ending (ls.map (·.mapValues f)) (init.map (·.mapValues f)) (l.mapValues f) where
  eq := by rw [h.eq, map_append, map_singleton]
  init k hk := by
    obtain ⟨j, hj, rfl⟩ := mem_map.mp hk
    exact h.init j hj
  last := h.last

/-- In a block that can be reached, a parameter of another block is read only where it is known. -/
theorem Available.of_read (hu : g.Unique) (ha : Available g av) {c : BlockId} (hb : g.Reachable b)
    (hbc : b ≠ c) (hl : l ∈ g.lines b) {q : ParamId} (hq : q ∈ g.params c)
    (hv : some (.param q) ∈ l.values) : av b (.param q) := by
  obtain ⟨before, after, hlines⟩ := append_of_mem hl
  rcases ha.reads b hb before l after hlines _ hv with hc | hav | ⟨r, hr, he⟩ | ⟨k, -, -, he⟩
  · exact hc.elim
  · exact hav
  · obtain rfl := Value.param.inj he
    exact absurd (hu.param b c q hr hq) hbc
  · cases he

namespace Merging

variable (h : Merging g g' av p s init t args f) {M : Machine V W}

include h

section

variable (hend : Ending (g.lines b) ini l)
  (hread : ∀ k ∈ g.lines b, ∀ q ∈ g.params s, some (.param q) ∈ k.values → K q)
  (hdef : ∀ x ∈ (g.params s).zip args, K x.1 → ¬ g.Defines b x.2)
    (hE : Merged (g.params s) args K env env') (w : W)
include hend hread hdef hE

theorem straight : (∃ es env₁ env₁' w₁, M.straight ini env w = (es, .ok (env₁, w₁)) ∧
      M.straight (ini.map (·.mapValues f)) env' w = (es, .ok (env₁', w₁)) ∧
      Merged (g.params s) args K env₁ env₁') ∨
    ∃ es w₁, M.straight ini env w = (es, .error w₁) ∧
      M.straight (ini.map (·.mapValues f)) env' w = (es, .error w₁) := by
  have hmem : ∀ k ∈ ini, k ∈ g.lines b := fun k hk => by
    rw [hend.eq]
    exact mem_append_left _ hk
  refine Machine.straight_alike (s := (·.mapValues f)) (fun _ => ⟨rfl, rfl, rfl, rfl⟩)
    (fun k hk env env' hE => ?_)
    (fun k hk env env' x hE => hE.set (fun y hy hK => ⟨by simp, fun he => ?_⟩) x) hE w
  · exact (h.reads hE (hread k (hmem k hk))).1
  · exact hdef y hy hK (he ▸ .inr ⟨k, hmem k hk, hend.init k hk, rfl⟩)

theorem exec : (M.exec ((g.lines b).map (·.mapValues f)) env' w).1 = (M.exec (g.lines b) env w).1 ∧
      Machine.LeaveAlike (Merged (g.params s) args K) (M.exec (g.lines b) env w).2
        (M.exec ((g.lines b).map (·.mapValues f)) env' w).2 := by
  rw [hend.exec, (hend.mapValues f).exec]
  rcases h.straight hend hread hdef hE w with ⟨es, env₁, env₁', w₁, h₁, h₁',
    hE₁⟩ | ⟨es, w₁, h₁, h₁'⟩
  · rw [h₁, h₁']
    obtain ⟨hreads, hexits⟩ := h.reads hE₁ (hread l hend.mem_last)
    have hop : (l.mapValues f).op = l.op := rfl
    exact ⟨rfl, Machine.leave_alike hE₁ hop hreads hexits w₁⟩
  · rw [h₁, h₁']
    exact ⟨rfl, .stop _⟩

end

def Related (g : Graph) (av : Avail) (s : BlockId) (args : List Value)
    (c c' : Config V W) : Prop :=
  c'.block = c.block ∧ c'.world = c.world ∧ g.Reachable c.block ∧ c.block ≠ s ∧
    Merged (g.params s) args (fun q => av c.block (.param q)) c.env c'.env

theorem related_enter {u : BlockId} (hb : g.Reachable b)
    (hbu : g.Leads b u) (hus : u ≠ s) (hK : ∀ q, av b (.param q) ∨ b = s → K q)
    (hE : Merged (g.params s) args K env env') (vs : List (Option V)) (w : W) :
    Related g av s args ⟨u, env.bind (g.params u) vs, w⟩ ⟨u, env'.bind (g'.params u) vs, w⟩ := by
  refine ⟨rfl, rfl, hb.step hbu, hus, ?_⟩
  rw [h.params]
  refine hE.bind _ _ fun x hx hav => ?_
  obtain ⟨hq, hmem⟩ := of_mem_zip hx
  refine ⟨hK x.1 ?_, fun hqu => hus (h.unique.param u s x.1 hqu hq), fun r hr he => ?_⟩
  · refine (h.known.edge b hb u hbu _ hav).imp_right fun hdef => ?_
    exact h.unique.defines hdef (.inl ⟨x.1, hq, rfl⟩)
  · exact h.not_redefined hq hmem (hb.step hbu) hav (.inl ⟨r, hr, he⟩)

/-- Entering `s` binds the parameters to the arguments, which are as they were. -/
theorem merged_enter (hE : Merged (g.params s) args K env env') :
    Merged (g.params s) args (fun _ => True)
    (env.bind (g.params s) ((args.map some).map env.read)) env' := by
  have hother (v) : (∀ q ∈ g.params s, v ≠ .param q) →
      env.bind (g.params s) ((args.map some).map env.read) v = env v := Env.bind_of_not_mem _ _
  refine ⟨fun v hv => ?_, fun x hx _ => ?_⟩
  · rw [hother v fun q hq he => hv ⟨q, hq, he⟩]
    exact hE.off v hv
  · obtain ⟨k, hk, rfl⟩ := mem_iff_getElem.mp hx
    rw [length_zip] at hk
    obtain ⟨hks, hka⟩ := Nat.lt_min.mp hk
    have hmem : args[k] ∈ args := getElem_mem _
    rw [getElem_zip, hother args[k] fun q hq => h.arg_ne_param hmem hq,
      env.bind_getElem h.nodup _ hks, getElem?_map, getElem?_map, getElem?_eq_getElem hka]
    rfl

section

variable (hends : ∀ b, g.Reachable b → ∃ init t, Ending (g.lines b) init t)
include hends

theorem turn_other {c c' : Config V W} (hR : Related g av s args c c') (hcp : c.block ≠ p) :
    (g'.turn M c').1 = (g.turn M c).1 ∧ Agree (Related g av s args) (g.turn M c).2
    (g'.turn M c').2 := by
  obtain ⟨hblock, hworld, hb, hbs, hE⟩ := hR
  obtain ⟨ini, l, hend⟩ := hends _ hb
  rw [turn, hblock, hworld, h.lines, if_neg hbs, if_neg hcp]
  obtain ⟨hes, hleave⟩ := h.exec hend (fun k hk q hq hv => h.known.of_read h.unique hb hbs hk hq hv)
    (fun x hx hav => h.not_redefined (of_mem_zip hx).1 (of_mem_zip hx).2 hb hav) hE c.world
  refine ⟨hes, hleave.enter fun u vs env env' w hjump hE' => ?_⟩
  obtain ⟨-, x, hx, hu'⟩ := hend.exec_jump hjump
  have hlead : g.Leads c.block u := ⟨l, hend.mem_last, x, hx, hu'⟩
  have hus : u ≠ s := by
    rintro rfl
    exact hcp (h.sole _ hb hlead)
  exact h.related_enter hb hlead hus (fun q hav => hav.resolve_right hbs) hE' vs w

theorem turn_merged {c c' : Config V W} (hR : Related g av s args c c') (hcp : c.block = p) :
    ∃ k, (g'.turn M c').1 = (g.run M (k + 1) c).1 ∧
      Agree (Related g av s args) (g.run M (k + 1) c).2 (g'.turn M c').2 := by
  obtain ⟨hblock, hworld, hb, hbs, hE⟩ := hR
  have hs : g.Reachable s := h.reached.step h.leads
  obtain ⟨ini, l, hend⟩ := hends s hs
  have hline : g'.lines p = init.map (·.mapValues f) ++ (g.lines s).map (·.mapValues f) := by
    rw [h.lines, if_neg h.ne, if_pos rfl, map_append]
  have hinit : ∀ k ∈ init.map (·.mapValues f), k.op.isTerminator = false := by
    intro k hk
    obtain ⟨j, hj, rfl⟩ := mem_map.mp hk
    exact h.before.init j hj
  have hexec := h.before.exec M c.env c.world
  rw [turn, hblock, hworld, hcp, hline, Machine.exec_append hinit]
  rcases h.straight h.before (fun k hk q hq hv => h.known.of_read h.unique h.reached h.ne hk hq hv)
    (fun x hx hav => h.not_redefined (of_mem_zip hx).1 (of_mem_zip hx).2 h.reached hav)
    (hcp ▸ hE) c.world with ⟨es, env₁, env₁', w₁, h₁, h₁', hE₁⟩ | ⟨es, w₁, h₁, h₁'⟩
  · rw [h₁] at hexec
    have hfirst : g.turn M c =
        (es, .inl ⟨s, env₁.bind (g.params s) ((args.map some).map env₁.read), w₁⟩) := by
      rw [turn, hcp, hexec]
      simp only [Machine.leave, h.br, h.exits, getElem?_cons_zero, Machine.take, enter]
    obtain ⟨hes, hleave⟩ := h.exec hend (fun _ _ _ _ _ => trivial)
      (fun x hx _ => h.arg_not_defined (of_mem_zip hx).2) (h.merged_enter hE₁) w₁
    refine ⟨1, ?_⟩
    rw [run_succ_of_jump hfirst, run_one, h₁']
    refine ⟨congrArg (es ++ ·) hes, hleave.enter fun u vs env env' w hjump hE' => ?_⟩
    obtain ⟨-, x, hx, hu'⟩ := hend.exec_jump hjump
    have hlead : g.Leads s u := ⟨l, hend.mem_last, x, hx, hu'⟩
    have hus : u ≠ s := by
      rintro rfl
      exact h.ne (h.sole _ hs hlead).symm
    exact h.related_enter hs hlead hus (fun _ _ => trivial) hE' vs w
  · refine ⟨0, ?_⟩
    rw [h₁] at hexec
    rw [run_one, turn, hcp, hexec, h₁']
    exact ⟨rfl, .ended _⟩

theorem same_of_reachable : Same nothing g g' := by
  refine .of_simulation fun V W M => ⟨Related g av s args, fun c c' hR => ?_, fun args' w => ?_⟩
  · by_cases hcp : c.block = p
    · obtain ⟨k, hes, hr⟩ := h.turn_merged hends hR hcp
      exact ⟨k, hes.trans (kept_none _).symm, hr⟩
    · obtain ⟨hes, hr⟩ := h.turn_other hends hR hcp
      refine ⟨0, ?_⟩
      rw [run_one]
      exact ⟨hes.trans (kept_none _).symm, hr⟩
  · rw [start, start, h.entry, h.params]
    exact ⟨rfl, rfl, .entry g, h.notEntry.symm, fun _ _ => rfl,
      fun _ _ hav => absurd hav (h.known.entry _)⟩

end

end Merging

end Merged

/-! ### Certificates -/

theorem Line.mapValues_eq_self (hl : ∀ v ∈ l.values, f v = v) : l.mapValues f = l := by
  obtain ⟨id, op, type, payload, reads, exits⟩ := l
  have hreads : reads.map f = reads :=
    (map_congr_left fun v hv => hl v (mem_append_left _ hv)).trans (map_id _)
  have hexits : exits.map (fun x => { x with args := x.args.map f }) = exits := by
    refine (map_congr_left fun x hx => ?_).trans (map_id _)
    have hargs : x.args.map f = x.args :=
      (map_congr_left fun v hv =>
        hl v (mem_append_right _ (mem_flatMap.mpr ⟨x, hx, hv⟩))).trans (map_id _)
    rw [hargs]
    rfl
  rw [Line.mapValues]
  simp only [hreads, hexits]

theorem Line.values_mapValues (l : Line) (f : Option Value → Option Value) :
    (l.mapValues f).values = l.values.map f := by
  rw [Line.values, Line.values, map_append, map_flatMap]
  exact congrArg (l.reads.map f ++ ·) (flatMap_map ..)

namespace Merges

variable (h : Merges g g' p s init t args f)
variable {u : BlockId}

include h

/-- If `p` cannot be reached, nothing that can be reached changes. -/
theorem agreeOnReachable (hu : g.Unique) (ha : Available g av) (hp : ¬ g.Reachable p) :
    AgreeOnReachable g g' := by
  have hs : ¬ g.Reachable s := by
    rintro ⟨bs, hbs⟩
    obtain ⟨ds, -, hds⟩ := h.walk_to hbs
    exact hp ⟨ds, hds⟩
  refine ⟨h.entry, fun b _ => by rw [h.params], fun b hb => ?_⟩
  have hbs : b ≠ s := fun he => hs (he ▸ hb)
  have hbp : b ≠ p := fun he => hp (he ▸ hb)
  rw [h.lines, if_neg hbs, if_neg hbp]
  refine (map_congr_left fun l hl => Line.mapValues_eq_self fun v hv => ?_).trans (map_id _)
  cases v with
  | none => exact h.none
  | some v =>
    refine h.other v fun q hq he => hs ?_
    obtain ⟨d, hd, hdq⟩ := ha.exists_defines hb (ha.of_read hu hb hbs hl hq (he ▸ hv))
    exact hu.defines hdq (.inl ⟨q, hq, rfl⟩) ▸ hd

theorem mem_lines_of_ne (hbs : b ≠ s) (hbp : b ≠ p) (hl : l ∈ g'.lines b) :
    ∃ k ∈ g.lines b, l = k.mapValues f := by
  rw [h.lines, if_neg hbs, if_neg hbp] at hl
  obtain ⟨k, hk, rfl⟩ := mem_map.mp hl
  exact ⟨k, hk, rfl⟩

theorem leads_of_ne (hbs : b ≠ s) (hbp : b ≠ p) (hlead : g'.Leads b u) : g.Leads b u := by
  obtain ⟨l, hl, x, hx, hu⟩ := hlead
  obtain ⟨k, hk, rfl⟩ := h.mem_lines_of_ne hbs hbp hl
  obtain ⟨y, hy, rfl⟩ := mem_map.mp hx
  exact ⟨k, hk, y, hy, hu⟩

theorem leads_merged (hlead : g'.Leads p u) : g.Leads s u := by
  obtain ⟨l, hl, x, hx, hu⟩ := hlead
  rw [h.lines, if_neg h.ne, if_pos rfl] at hl
  obtain ⟨k, hk, rfl⟩ := mem_map.mp hl
  obtain ⟨y, hy, rfl⟩ := mem_map.mp hx
  rcases mem_append.mp hk with hk | hk
  · rw [h.plain k hk] at hy
    cases hy
  · exact ⟨k, hk, y, hy, hu⟩

theorem reachable (hb : g'.Reachable b) : g.Reachable b ∧ b ≠ s := by
  obtain ⟨bs, hbs⟩ := hb
  induction hbs with
  | start =>
    rw [h.entry]
    exact ⟨.entry g, h.notEntry.symm⟩
  | @step _ d u _ ht ih =>
    obtain ⟨hd, hds⟩ := ih
    by_cases hdp : d = p
    · subst hdp
      have hsu := h.leads_merged ht
      have hs := hd.step h.leads
      refine ⟨hs.step hsu, ?_⟩
      rintro rfl
      exact h.ne (h.sole _ hs hsu).symm
    · have hdu := h.leads_of_ne hds hdp ht
      refine ⟨hd.step hdu, ?_⟩
      rintro rfl
      exact hdp (h.sole d hd hdu)

theorem defines_of_ne (hbs : b ≠ s) (hbp : b ≠ p) (hv : g.Defines b v) : g'.Defines b v := by
  rcases hv with hv | ⟨l, hl, hterm, rfl⟩
  · exact .inl (h.params ▸ hv)
  · refine .inr ⟨l.mapValues f, ?_, hterm, rfl⟩
    rw [h.lines, if_neg hbs, if_neg hbp]
    exact mem_map_of_mem hl

theorem defines_merged (hv : g.Defines p v ∨ ∃ l ∈ g.lines s, l.op.isTerminator = false ∧
    v = .inst l.id) :
    g'.Defines p v := by
  have hline : ∀ l ∈ init ++ g.lines s, l.mapValues f ∈ g'.lines p := fun l hl => by
    rw [h.lines, if_neg h.ne, if_pos rfl]
    exact mem_map_of_mem hl
  rcases hv with hv | ⟨l, hl, hterm, rfl⟩
  · rcases h.before.defines.mp hv with hv | ⟨l, hl, rfl⟩
    · exact .inl (h.params ▸ hv)
    · exact .inr ⟨_, hline l (mem_append_left _ hl), h.before.init l hl, rfl⟩
  · exact .inr ⟨_, hline l (mem_append_right _ hl), hterm, rfl⟩

/-- What is known after the merge: parameters of `s` give way to their arguments. -/
def availAfter (g : Graph) (av : Avail) (s : BlockId) (args : List Value)
    (b : BlockId) (v : Value) : Prop :=
  (av b v ∧ ∀ q ∈ g.params s, v ≠ .param q) ∨ ∃ q, (q, v) ∈ (g.params s).zip args ∧
    av b (.param q) ∧ ¬ Constant v

theorem known_merged (hv : Constant v ∨ av p v ∨ g.Defines p v)
    (hs : ∀ q ∈ g.params s, v ≠ .param q)
    (hbefore : ∀ k ∈ init, k.mapValues f ∈ before') :
    Known g' (availAfter g av s args) p before' v := by
  rcases hv with hc | hav | hdef
  · exact .inl hc
  · exact .inr (.inl (.inl ⟨hav, hs⟩))
  · rcases h.before.defines.mp hdef with hpar | ⟨l, hl, rfl⟩
    · exact .inr (.inr (.inl (h.params ▸ hpar)))
    · exact .inr (.inr (.inr ⟨_, hbefore l hl, h.before.init l hl, rfl⟩))

end Merges

namespace Merging

open Merges (availAfter)

variable (h : Merging g g' av p s init t args f)
variable {u : BlockId}

include h

theorem known_of_ne (hbs : b ≠ s)
    (hv : Known g av b before v) (hv' : f (some v) = some v')
    (hbefore : ∀ k ∈ before, k.mapValues f ∈ before') :
    Known g' (availAfter g av s args) b before' v' := by
  by_cases hparam : ∃ q ∈ g.params s, v = .param q
  · obtain ⟨q, hq, rfl⟩ := hparam
    obtain ⟨a, hqa⟩ := h.exists_pair hq
    rw [h.substitute hqa] at hv'
    obtain rfl := Option.some.inj hv'
    by_cases hc : Constant a
    · exact .inl hc
    rcases hv with hc' | hav | ⟨r, hr, he⟩ | ⟨k, -, -, he⟩
    · exact hc'.elim
    · exact .inr (.inl (.inr ⟨q, hqa, hav, hc⟩))
    · obtain rfl := Value.param.inj he
      exact absurd (h.unique.param b s q hr hq) hbs
    · cases he
  · have hother : ∀ q ∈ g.params s, v ≠ .param q := fun q hq he => hparam ⟨q, hq, he⟩
    rw [h.other v hother] at hv'
    obtain rfl := Option.some.inj hv'
    rcases hv with hc | hav | hpar | ⟨k, hk, hterm, rfl⟩
    · exact .inl hc
    · exact .inr (.inl (.inl ⟨hav, hother⟩))
    · exact .inr (.inr (.inl (h.params ▸ hpar)))
    · exact .inr (.inr (.inr ⟨_, hbefore k hk, hterm, rfl⟩))

theorem edge_of_ne (hb : g.Reachable b) (hbs : b ≠ s) (hbp : b ≠ p)
    (hbu : g.Leads b u) (hv : availAfter g av s args u v) : availAfter g av s args b v ∨
      g'.Defines b v := by
  rcases hv with ⟨hav, hother⟩ | ⟨q, hqa, hav, hc⟩
  · rcases h.known.edge b hb u hbu v hav with hav | hdef
    · exact .inl (.inl ⟨hav, hother⟩)
    · exact .inr (h.defines_of_ne hbs hbp hdef)
  · rcases h.known.edge b hb u hbu _ hav with hav | hdef
    · exact .inl (.inr ⟨q, hqa, hav, hc⟩)
    · exact absurd (h.unique.defines hdef (.inl ⟨q, (of_mem_zip hqa).1, rfl⟩)) hbs

theorem edge_merged (hsu : g.Leads s u)
    (hv : availAfter g av s args u v) : availAfter g av s args p v ∨ g'.Defines p v := by
  have hs := h.reached.step h.leads
  rcases hv with ⟨hav, hother⟩ | ⟨q, hqa, hav, hc⟩
  · rcases h.known.edge s hs u hsu v hav with hav | ⟨q, hq, he⟩ | hline
    · rcases h.known.edge p h.reached s h.leads v hav with hav | hdef
      · exact .inl (.inl ⟨hav, hother⟩)
      · exact .inr (h.defines_merged (.inl hdef))
    · exact absurd he (hother q hq)
    · exact .inr (h.defines_merged (.inr hline))
  · have hmem := (of_mem_zip hqa).2
    rcases h.arg_known hmem with hc' | hav' | hdef
    · exact absurd hc' hc
    · exact .inl (.inl ⟨hav', fun r hr => h.arg_ne_param hmem hr⟩)
    · exact .inr (h.defines_merged (.inl hdef))

theorem known_appended (hv : Known g av s before v) (hv' : f (some v) = some v') :
    Known g' (availAfter g av s args) p ((init ++ before).map (·.mapValues f)) v' := by
  have hinit : ∀ k ∈ init, k.mapValues f ∈ (init ++ before).map (·.mapValues f) := fun k hk =>
    mem_map_of_mem (mem_append_left _ hk)
  by_cases hparam : ∃ q ∈ g.params s, v = .param q
  · obtain ⟨q, hq, rfl⟩ := hparam
    obtain ⟨a, hqa⟩ := h.exists_pair hq
    have hmem := (of_mem_zip hqa).2
    rw [h.substitute hqa] at hv'
    obtain rfl := Option.some.inj hv'
    exact h.known_merged (h.arg_known hmem) (fun r hr => h.arg_ne_param hmem hr) hinit
  · have hother : ∀ q ∈ g.params s, v ≠ .param q := fun q hq he => hparam ⟨q, hq, he⟩
    rw [h.other v hother] at hv'
    obtain rfl := Option.some.inj hv'
    rcases hv with hc | hav | ⟨q, hq, he⟩ | ⟨k, hk, hterm, rfl⟩
    · exact .inl hc
    · exact h.known_merged (.inr (h.known.edge p h.reached s h.leads v hav)) hother hinit
    · exact absurd he (hother q hq)
    · exact .inr (.inr (.inr ⟨_, mem_map_of_mem (mem_append_right _ hk), hterm, rfl⟩))

theorem available : Available g' (availAfter g av s args) where
  entry v hv := by
    rw [h.entry] at hv
    rcases hv with ⟨hav, -⟩ | ⟨q, -, hav, -⟩ <;> exact h.known.entry _ hav
  edge b hb u hbu v hv := by
    obtain ⟨hb', hbs⟩ := h.reachable hb
    by_cases hbp : b = p
    · subst hbp
      exact h.edge_merged (h.leads_merged hbu) hv
    · exact h.edge_of_ne hb' hbs hbp (h.leads_of_ne hbs hbp hbu) hv
  reads b hb before' l' after' hl v' hv' := by
    obtain ⟨hb', hbs⟩ := h.reachable hb
    rw [h.lines, if_neg hbs] at hl
    obtain ⟨before, rest, hsplit, rfl, hrest⟩ := map_eq_append_iff.mp hl
    obtain ⟨l, after, rfl, rfl, -⟩ := map_eq_cons_iff.mp hrest
    rw [Line.values_mapValues] at hv'
    obtain ⟨u, hu', hf⟩ := mem_map.mp hv'
    have hkept : ∀ k ∈ before, k.mapValues f ∈ before.map (·.mapValues f) := fun k hk =>
      mem_map_of_mem hk
    cases u with
    | none =>
      rw [h.none] at hf
      cases hf
    | some v =>
      split at hsplit
      · next hbp =>
        subst hbp
        -- The line stood in `b` before, or in the block that was appended to it.
        rcases append_eq_append_iff.mp hsplit with ⟨zs, rfl, hzs⟩ | ⟨zs, rfl, hzs⟩
        · exact h.known_appended (h.known.reads s (h.reached.step h.leads) zs l after hzs v hu') hf
        · cases zs with
          | nil =>
            have hknown := h.known.reads s (h.reached.step h.leads) [] l after hzs.symm v hu'
            simpa using h.known_appended hknown hf
          | cons k zs =>
            obtain ⟨rfl, hafter⟩ := cons.inj hzs
            refine h.known_of_ne hbs (h.known.reads b hb' before l (zs ++ [t]) ?_ v hu') hf hkept
            rw [h.before.eq]
            simp
      · exact h.known_of_ne hbs (h.known.reads b hb' before l after hsplit v hu') hf hkept

end Merging

theorem Merges.same (h : Merges g g' p s init t args f) (hu : g.Unique) (ha : Available g av)
    (hends : ∀ b, g.Reachable b → ∃ init t, Ending (g.lines b) init t) : Same nothing g g' := by
  by_cases hp : g.Reachable p
  · exact { h with unique := hu, known := ha, reached := hp : Merging .. }.same_of_reachable hends
  · exact (h.agreeOnReachable hu ha hp).same

theorem Merges.certified (h : Merges g g' p s init t args f) (hu : g.Unique) (ha : Available g av) :
    ∃ av', Available g' av' := by
  by_cases hp : g.Reachable p
  · exact ⟨_, { h with unique := hu, known := ha, reached := hp : Merging .. }.available⟩
  · exact ⟨_, (h.agreeOnReachable hu ha hp).available ha⟩

end Midlevel.Flow
