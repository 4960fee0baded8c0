import Midlevel.Proofs.Flow.Graph

/-!
Which values are known where. Dominance is about all walks from the entry, and a rewrite of the
graph changes all of them at once; so what rewrites carry along is a certificate instead, an
assignment of values to blocks that every edge and every read can be checked against.
`Dominated.available` makes one from dominance, and `Available.defined_on_walk` and
`Available.dominated` lead back to walks.
-/

/-- What is known when a block is entered. -/
abbrev Midlevel.Ir.Avail := Midlevel.Ir.BlockId → Midlevel.Ir.Value → Prop

namespace Midlevel.Flow

open Ir List
open Pass (Exit)

variable {b : BlockId} {t : Line} {init ls : List Line} {v : Value} {X : Value → Prop}
variable {bs : List BlockId} {x : Option Exit} {l : Line} {ps : List ParamId}

namespace Graph

variable (g : Graph)

/-- What a block gives a value to. A line that ends a block has no result. -/
def Defines (b : BlockId) (v : Value) : Prop :=
  (∃ p ∈ g.params b, v = .param p) ∨ ∃ l ∈ g.lines b, l.op.isTerminator = false ∧ v = .inst l.id

def Leads (b t : BlockId) : Prop := ∃ l ∈ g.lines b, ∃ x ∈ l.exits, x.target = some t

/-- A walk from the entry to a block, with the blocks passed before, the latest first. -/
inductive Walk (g : Graph) : List BlockId → BlockId → Prop
  | start : Walk g [] g.entry
  | step {bs : List BlockId} {b t : BlockId} (h : Walk g bs b) (ht : g.Leads b t) :
    Walk g (b :: bs) t

def Reachable (b : BlockId) : Prop := ∃ bs, g.Walk bs b

def Dominates (d b : BlockId) : Prop := ∀ bs, g.Walk bs b → d ∈ b :: bs

/-- The definition of `v` dominates a line of `b` that comes after the lines `before`. -/
def DefinedBefore (b : BlockId) (before : List Line) : Value → Prop
  | .inst i => (∃ k ∈ before, k.id = i) ∨ ∃ d, d ≠ b ∧ (∃ k ∈ g.lines d, k.id = i) ∧ g.Dominates d b
  | .param p => ∃ d, p ∈ g.params d ∧ g.Dominates d b
  | .func _ => True
  | .global _ => True

/-- Every value that is read in a block that can be reached is defined before. -/
def Dominated : Prop :=
  ∀ b, g.Reachable b → ∀ before l after, g.lines b = before ++ l :: after →
    ∀ v, some v ∈ l.values → g.DefinedBefore b before v

end Graph

def Constant : Value → Prop
  | .func _ => True
  | .global _ => True
  | _ => False

/-- What is known in a block after the lines `before`, if `av` is known when it is entered. -/
def Known (g : Graph) (av : Avail) (b : BlockId) (before : List Line) (v : Value) :
    Prop :=
  Constant v ∨ av b v ∨ (∃ p ∈ g.params b, v = .param p) ∨ ∃ k ∈ before, k.op.isTerminator = false ∧
    v = .inst k.id

/-- A certificate that whatever is read is known. -/
structure Available (g : Graph) (av : Avail) : Prop where
  entry : ∀ v, ¬ av g.entry v
  edge : ∀ b, g.Reachable b → ∀ t, g.Leads b t → ∀ v, av t v → av b v ∨ g.Defines b v
  reads : ∀ b, g.Reachable b → ∀ before l after, g.lines b = before ++ l :: after →
    ∀ v, some v ∈ l.values → Known g av b before v

variable {g : Graph} {av : Avail}

theorem Graph.Reachable.entry (g : Graph) : g.Reachable g.entry := ⟨[], .start⟩

theorem Graph.Reachable.step {t : BlockId} (h : g.Reachable b) (ht : g.Leads b t) :
    g.Reachable t := by
  obtain ⟨bs, hbs⟩ := h
  exact ⟨b :: bs, hbs.step ht⟩

/-- No value is the result of a line that ends a block. -/
def Graph.ReadsResults (g : Graph) : Prop :=
  ∀ b, ∀ l ∈ g.lines b, ∀ c, ∀ k ∈ g.lines c, some (.inst k.id) ∈ l.values →
    k.op.isTerminator = false

theorem Graph.Dominated.available (h : g.Dominated) (hresults : g.ReadsResults) :
    Available g fun b v => ∀ bs, g.Walk bs b → ∃ d ∈ bs, g.Defines d v where
  entry v hv := by
    obtain ⟨d, hd, -⟩ := hv [] .start
    cases hd
  edge b _ t ht v hv := by
    by_cases hdef : g.Defines b v
    · exact .inr hdef
    · refine .inl fun bs hbs => ?_
      obtain ⟨d, hd, hdv⟩ := hv _ (hbs.step ht)
      rcases mem_cons.mp hd with rfl | hd
      · exact absurd hdv hdef
      · exact ⟨d, hd, hdv⟩
  reads b hb before l after hl v hv := by
    have hmem : l ∈ g.lines b := by simp [hl]
    have hdefined := h b hb before l after hl v hv
    cases v with
    | func f => exact .inl trivial
    | global i => exact .inl trivial
    | param p =>
      obtain ⟨d, hp, hdom⟩ := hdefined
      by_cases hdb : d = b
      · exact .inr (.inr (.inl ⟨p, hdb ▸ hp, rfl⟩))
      · refine .inr (.inl fun bs hbs => ⟨d, ?_, .inl ⟨p, hp, rfl⟩⟩)
        exact (mem_cons.mp (hdom bs hbs)).resolve_left hdb
    | inst i =>
      rcases hdefined with ⟨k, hk, rfl⟩ | ⟨d, hdb, ⟨k, hk, rfl⟩, hdom⟩
      · have hkb : k ∈ g.lines b := by simp [hl, hk]
        exact .inr (.inr (.inr ⟨k, hk, hresults b l hmem b k hkb hv, rfl⟩))
      · have hterm := hresults b l hmem d k hk hv
        refine .inr (.inl fun bs hbs => ⟨d, ?_, .inr ⟨k, hk, hterm, rfl⟩⟩)
        exact (mem_cons.mp (hdom bs hbs)).resolve_left hdb

theorem Available.defined_on_walk (h : Available g av) (hw : g.Walk bs b) (hv : av b v) :
    ∃ d ∈ bs, g.Defines d v := by
  induction hw with
  | start => exact absurd hv (h.entry v)
  | step hw ht ih =>
    rcases h.edge _ ⟨_, hw⟩ _ ht v hv with hv | hv
    · obtain ⟨d, hd, hdv⟩ := ih hv
      exact ⟨d, mem_cons_of_mem _ hd, hdv⟩
    · exact ⟨_, mem_cons_self, hv⟩

theorem Graph.Walk.of_mem {d : BlockId} (h : g.Walk bs b) (hd : d ∈ bs) :
    ∃ ds, g.Walk ds d ∧ ds.length < bs.length := by
  induction h with
  | start => cases hd
  | step hw ht ih =>
    rcases mem_cons.mp hd with rfl | hd
    · exact ⟨_, hw, Nat.lt_succ_self _⟩
    · obtain ⟨ds, hds, hlt⟩ := ih hd
      exact ⟨ds, hds, Nat.lt_succ_of_lt hlt⟩

theorem Available.exists_defines (h : Available g av) (hb : g.Reachable b) (hv : av b v) :
    ∃ d, g.Reachable d ∧ g.Defines d v := by
  obtain ⟨bs, hbs⟩ := hb
  obtain ⟨d, hd, hdv⟩ := h.defined_on_walk hbs hv
  obtain ⟨ds, hds, -⟩ := hbs.of_mem hd
  exact ⟨d, ⟨ds, hds⟩, hdv⟩

/-! ### Lines -/

/-- A line is known by its id, and stands in one block; so does a parameter. -/
structure Graph.Unique (g : Graph) : Prop where
  line : ∀ b c, ∀ l ∈ g.lines b, ∀ k ∈ g.lines c, l.id = k.id → l = k ∧ b = c
  param : ∀ b c p, p ∈ g.params b → p ∈ g.params c → b = c

theorem Graph.Defines.not_constant (hv : g.Defines b v) : ¬ Constant v := by
  rcases hv with ⟨q, -, rfl⟩ | ⟨l, -, -, rfl⟩ <;> exact id

theorem Graph.Unique.defines (h : g.Unique) {c : BlockId} (hb : g.Defines b v)
    (hc : g.Defines c v) : b = c := by
  rcases hb with ⟨p, hp, rfl⟩ | ⟨l, hl, -, rfl⟩
  · rcases hc with ⟨q, hq, heq⟩ | ⟨k, -, -, heq⟩
    · exact h.param b c p hp (Value.param.inj heq ▸ hq)
    · cases heq
  · rcases hc with ⟨q, -, heq⟩ | ⟨k, hk, -, heq⟩
    · cases heq
    · exact (h.line b c l hl k hk (Value.inst.inj heq)).2

/-- What is known in a block was defined in another one, which every walk to it passes. -/
theorem Available.dominating (h : Available g av) (hu : g.Unique) (hb : g.Reachable b)
    (hv : av b v) :
    ∃ d, d ≠ b ∧ g.Defines d v ∧ g.Dominates d b := by
  obtain ⟨bs, hbs⟩ := hb
  obtain ⟨d, -, hdv⟩ := h.defined_on_walk hbs hv
  have hpassed {cs : List BlockId} (hcs : g.Walk cs b) : d ∈ cs := by
    obtain ⟨d', hd', hdv'⟩ := h.defined_on_walk hcs hv
    rwa [hu.defines hdv hdv']
  refine ⟨d, ?_, hdv, fun cs hcs => mem_cons_of_mem _ (hpassed hcs)⟩
  rintro rfl
  -- a walk that has passed the block before can be cut short there, again and again
  induction hn : bs.length using Nat.strongRecOn generalizing bs with
  | _ n ih =>
    subst hn
    obtain ⟨ds, hds, hlt⟩ := hbs.of_mem (hpassed hbs)
    exact ih _ hlt ds hds rfl

theorem Available.dominated (h : Available g av) (hu : g.Unique) : g.Dominated := by
  intro b hb before l after hl v hv
  rcases h.reads b hb before l after hl v hv with hconst | havail | ⟨p, hp, rfl⟩ | ⟨k, hk, -, rfl⟩
  · cases v with
    | func f => trivial
    | global i => trivial
    | param p => exact hconst.elim
    | inst i => exact hconst.elim
  · obtain ⟨d, hdb, hdv, hdom⟩ := h.dominating hu hb havail
    rcases hdv with ⟨p, hp, rfl⟩ | ⟨k, hk, -, rfl⟩
    · exact ⟨d, hp, hdom⟩
    · exact .inr ⟨d, hdb, ⟨k, hk, rfl⟩, hdom⟩
  · exact ⟨b, hp, fun _ _ => mem_cons_self⟩
  · exact .inl ⟨k, hk, rfl⟩

variable {V W : Type}

namespace Machine

variable (M : Machine V W)
variable {env env' : Env V} {w w' : W}
variable {args : List (Option V)}

/-- Lines that do not end the block, one after the other; an error is the world they trap in. -/
def straight : List Line → Env V → W → List (Event V) × Except W (Env V × W)
  | [], env, w => ([], .ok (env, w))
  | l :: rest, env, w =>
    match M.perform l (l.reads.map env.read) w with
    | .next x w' =>
      let r := straight rest (env.set (.inst l.id) x) w'
      (event l env :: r.1, r.2)
    | .trap w' => ([event l env], .error w')

variable {M}

theorem exec_append (hinit : ∀ l ∈ init, l.op.isTerminator = false) (rest : List Line)
    (env : Env V) (w : W) :
    M.exec (init ++ rest) env w = match M.straight init env w with
      | (es, .ok (env', w')) => (es ++ (M.exec rest env' w').1, (M.exec rest env' w').2)
      | (es, .error w') => (es, .stop (.trapped w')) := by
  induction init generalizing env w with
  | nil => rfl
  | cons l init ih =>
    have hl : ¬ l.op.isTerminator = true := by simp [hinit l mem_cons_self]
    simp only [cons_append, exec, straight, if_neg hl]
    cases M.perform l (l.reads.map env.read) w with
    | trap w' => rfl
    | next x w' =>
      simp only [ih (forall_mem_cons.mp hinit).2]
      cases M.straight init (env.set (.inst l.id) x) w' with
      | mk es r => cases r <;> rfl

theorem exec_terminator (ht : t.op.isTerminator = true) (rest : List Line) (env : Env V) (w : W) :
    M.exec (t :: rest) env w = ([], M.leave t env w) := by
  rw [exec, if_pos ht]

/-- The blocks are left alike, in environments that are related by `E`. -/
inductive LeaveAlike (E : Env V → Env V → Prop) : Leave V W → Leave V W → Prop
  | jump {t : BlockId} {args : List (Option V)} {env env' : Env V} {w : W} (h : E env env') :
    LeaveAlike E (.jump t args env w) (.jump t args env' w)
  | stop (o : Outcome V W) : LeaveAlike E (.stop o) (.stop o)

def passes (env : Env V) (x : Exit) : Option BlockId × List (Option V) :=
  (x.target, x.args.map env.read)

theorem take_alike {E : Env V → Env V → Prop} (hE : E env env') {x' : Option Exit}
    (hx : x'.map (passes env') = x.map (passes env)) (w : W) :
    LeaveAlike E (take x env w) (take x' env' w) := by
  cases x with
  | none =>
    rw [Option.map_none, Option.map_eq_none_iff] at hx
    rw [hx]
    exact .stop _
  | some x =>
    obtain ⟨y, rfl, hy⟩ := Option.map_eq_some_iff.mp hx
    obtain ⟨_ | t, args⟩ := x <;> obtain ⟨_ | t', args'⟩ := y
    · exact .stop _
    · exact nomatch (Prod.mk.inj hy).1
    · exact nomatch (Prod.mk.inj hy).1
    · obtain ⟨ht, hargs⟩ := Prod.mk.inj hy
      obtain rfl : t' = t := Option.some.inj ht
      have hargs' : args'.map env'.read = args.map env.read := hargs
      show LeaveAlike E (.jump t' (args.map env.read) env w) (.jump t' (args'.map env'.read) env' w)
      rw [hargs']
      exact .jump hE

theorem leave_alike {E : Env V → Env V → Prop} (hE : E env env') {l' : Line} (hop : l'.op = l.op)
    (hreads : l'.reads.map env'.read = l.reads.map env.read)
    (hexits : l'.exits.map (passes env') = l.exits.map (passes env)) (w : W) :
    LeaveAlike E (M.leave l env w) (M.leave l' env' w) := by
  have hexit : ∀ n : Nat, l'.exits[n]?.map (passes env') =
      l.exits[n]?.map (passes env) := fun n => by
    rw [← List.getElem?_map, ← List.getElem?_map, hexits]
  have hcond : l'.reads.head?.bind env'.read = l.reads.head?.bind env.read := by
    have hhead : ∀ (vs : List (Option Value)) (e : Env V), vs.head?.bind e.read =
        (vs.map e.read).head?.join :=
      fun vs e => by cases vs <;> rfl
    rw [hhead, hhead, hreads]
  unfold leave
  rw [hop]
  split
  · exact take_alike hE (hexit 0) w
  · rw [hcond]
    split
    · split
      · exact take_alike hE (hexit 0) w
      · exact take_alike hE (hexit 1) w
    · exact .stop _
  · rw [hreads]
    exact .stop _
  all_goals exact .stop _

theorem straight_results {es : List (Event V)} (h : M.straight init env w = (es, .ok (env', w')))
    (P : Option V → Prop)
    (hset : ∀ l ∈ init, v = .inst l.id → ∀ vs w₀ x w₁, M.perform l vs w₀ = .next x w₁ → P (some x))
    (hP : P (env v) ∨ ∃ l ∈ init, v = .inst l.id) : P (env' v) := by
  induction init generalizing env w es with
  | nil =>
    obtain ⟨rfl, rfl⟩ : env = env' ∧ w = w' := by simpa using (Prod.mk.inj h).2
    exact hP.resolve_right fun ⟨l, hl, _⟩ => absurd hl not_mem_nil
  | cons l init ih =>
    rw [straight] at h
    split at h
    · next x w₁ hperform =>
      refine ih (Prod.ext rfl (Prod.mk.inj h).2) (forall_mem_cons.mp hset).2 ?_
      by_cases hv : v = .inst l.id
      · refine .inl ?_
        rw [hv, Env.set, Function.update_self]
        exact hset l mem_cons_self hv _ _ _ _ hperform
      · rw [Env.set, Function.update_of_ne hv]
        refine hP.imp_right fun ⟨k, hk, hkv⟩ => ?_
        rcases mem_cons.mp hk with rfl | hk
        · exact absurd hkv hv
        · exact ⟨k, hk, hkv⟩
    · exact nomatch (Prod.mk.inj h).2

theorem take_jump {t : BlockId} (h : take x env w = .jump t args env' w') :
    ∃ y, x = some y ∧ y.target = some t ∧ args = y.args.map env.read ∧ env' = env ∧ w' = w := by
  unfold take at h
  split at h
  · next t' args' =>
    obtain ⟨rfl, rfl, rfl, rfl⟩ := Leave.jump.inj h
    exact ⟨_, rfl, rfl, rfl, rfl, rfl⟩
  · cases h

theorem leave_jump {t : BlockId} (h : M.leave l env w = .jump t args env' w') :
    ∃ x ∈ l.exits, x.target = some t ∧ args = x.args.map env.read ∧ env' = env ∧ w' = w := by
  unfold leave at h
  split at h
  · obtain ⟨x, hx, hrest⟩ := take_jump h
    exact ⟨x, mem_of_getElem? hx, hrest⟩
  · split at h
    · obtain ⟨x, hx, hrest⟩ := take_jump h
      split at hx <;> exact ⟨x, mem_of_getElem? hx, hrest⟩
    · cases h
  all_goals cases h

theorem exec_jump_leads {t : BlockId} (h : (M.exec ls env w).2 = .jump t args env' w') :
    ∃ l ∈ ls, ∃ x ∈ l.exits, x.target = some t := by
  induction ls generalizing env w with
  | nil => cases h
  | cons l ls ih =>
    rw [exec] at h
    split at h
    · obtain ⟨x, hx, ht, -⟩ := leave_jump h
      exact ⟨l, mem_cons_self, x, hx, ht⟩
    · split at h
      · obtain ⟨k, hk, hrest⟩ := ih h
        exact ⟨k, mem_cons_of_mem _ hk, hrest⟩
      · cases h

end Machine

/-- Lines that read the same are performed alike. `s` changes what a line reads, and
nothing else. -/
theorem Machine.straight_alike {M : Machine V W} {E : Env V → Env V → Prop} {s : Line → Line}
    (hs : ∀ l, (s l).id = l.id ∧ (s l).op = l.op ∧ (s l).type = l.type ∧ (s l).payload = l.payload)
    (hread : ∀ l ∈ ls, ∀ env env', E env env' → (s l).reads.map env'.read = l.reads.map env.read)
    (hset : ∀ l ∈ ls, ∀ env env' x, E env env' →
      E (env.set (.inst l.id) x) (env'.set (.inst l.id) x))
    {env env' : Env V} (hE : E env env') (w : W) :
    (∃ es env₁ env₁' w₁, M.straight ls env w = (es, .ok (env₁, w₁)) ∧
      M.straight (ls.map s) env' w = (es, .ok (env₁', w₁)) ∧ E env₁ env₁') ∨
    ∃ es w₁, M.straight ls env w = (es, .error w₁) ∧ M.straight (ls.map s) env' w =
    (es, .error w₁) := by
  induction ls generalizing env env' w with
  | nil => exact .inl ⟨[], env, env', w, rfl, rfl, hE⟩
  | cons l ls ih =>
    obtain ⟨hid, hop, htype, hpayload⟩ := hs l
    have hreads := hread l mem_cons_self env env' hE
    have hperform : M.perform (s l) ((s l).reads.map env'.read) w =
        M.perform l (l.reads.map env.read) w := by
      rw [perform, perform, hop, htype, hpayload, hreads]
    have hevent : event (s l) env' = event l env := by
      rw [event, event, hid, hop, htype, hpayload, hreads]
    rw [map_cons, straight, straight, hperform, hevent, hid]
    split
    · next x w' _ =>
      have ih' := ih (forall_mem_cons.mp hread).2 (forall_mem_cons.mp hset).2
        (hset l mem_cons_self env env' x hE) w'
      rcases ih' with ⟨es, env₁, env₁', w₁, h₁, h₁', hE₁⟩ | ⟨es, w₁, h₁, h₁'⟩
      · refine .inl ⟨event l env :: es, env₁, env₁', w₁, ?_, ?_, hE₁⟩
        · rw [h₁]
        · rw [h₁']
      · refine .inr ⟨event l env :: es, w₁, ?_, ?_⟩
        · rw [h₁]
        · rw [h₁']
    · exact .inr ⟨_, _, rfl, rfl⟩

theorem Machine.LeaveAlike.enter {E : Env V → Env V → Prop} {R : Config V W → Config V W → Prop}
    {a a' : Leave V W} (h : LeaveAlike E a a') {g' : Graph}
    (hR : ∀ t args env env' w, a = .jump t args env w → E env env' →
      R ⟨t, env.bind (g.params t) args, w⟩ ⟨t, env'.bind (g'.params t) args, w⟩) :
    Agree R (g.enter a) (g'.enter a') := by
  cases h with
  | stop o => exact .ended o
  | jump hE => exact .going (hR _ _ _ _ _ rfl hE)

/-! ### Environments -/

/-- The environments differ at most in the values of `X`. -/
def AgreeOff (X : Value → Prop) (env env' : Env V) : Prop := ∀ v, ¬ X v → env' v = env v

theorem AgreeOff.set {env env' : Env V} (h : AgreeOff X env env') (v : Value) (x : V) :
    AgreeOff X (env.set v x) (env'.set v x) := by
  intro u hu
  rw [Env.set, Env.set, Function.update_apply, Function.update_apply, h u hu]

theorem Env.bind_of_not_mem (env : Env V) (vs : List (Option V))
    (hv : ∀ p ∈ ps, v ≠ .param p) : env.bind ps vs v = env v := by
  cases v with
  | param p =>
    have hp : ps.idxOf? p = none := List.idxOf?_eq_none_iff.mpr fun h => hv p h rfl
    simp only [Env.bind, hp]
  | inst _ => rfl
  | func _ => rfl
  | global _ => rfl

theorem Env.bind_getElem (env : Env V) (hps : ps.Nodup) (vs : List (Option V)) {k : Nat}
    (hk : k < ps.length) : env.bind ps vs (.param ps[k]) = vs[k]?.join := by
  have hidx : ps.idxOf? ps[k] = some k := by
    refine List.findIdx?_eq_some_iff_getElem.mpr ⟨hk, by simp, fun j hj he => ?_⟩
    have := (getElem_inj hps).mp (eq_of_beq he)
    omega
  simp only [Env.bind, hidx]

theorem AgreeOff.bind {env env' : Env V} (h : AgreeOff X env env') (ps : List ParamId)
    (vs : List (Option V)) :
    AgreeOff X (env.bind ps vs) (env'.bind ps vs) := by
  intro v hv
  cases v with
  | param p =>
    simp only [Env.bind]
    split
    · rfl
    · exact h _ hv
  | inst _ => exact h _ hv
  | func _ => exact h _ hv
  | global _ => exact h _ hv

theorem AgreeOff.read {env env' : Env V} (h : AgreeOff X env env') {v : Option Value}
    (hv : ∀ x, v = some x → ¬ X x) : env'.read v = env.read v := by
  cases v with
  | none => rfl
  | some x => exact h x (hv x rfl)

theorem AgreeOff.reads {env env' : Env V} (h : AgreeOff X env env')
    (hl : ∀ x, some x ∈ l.values → ¬ X x) :
    l.reads.map env'.read = l.reads.map env.read ∧
      l.exits.map (Machine.passes env') = l.exits.map (Machine.passes env) := by
  refine ⟨map_congr_left fun v hv => h.read fun x hx => hl x ?_, map_congr_left fun y hy => ?_⟩
  · exact mem_append_left _ (hx ▸ hv)
  · refine Prod.ext rfl (map_congr_left fun v hv => h.read fun x hx => hl x ?_)
    exact mem_append_right _ (mem_flatMap.mpr ⟨y, hy, hx ▸ hv⟩)

/-! ### Blocks that end -/

/-- The lines of a block: some that do not end it, and one that does. -/
structure Ending (ls init : List Line) (t : Line) : Prop where
  eq : ls = init ++ [t]
  init : ∀ l ∈ init, l.op.isTerminator = false
  last : t.op.isTerminator = true

theorem Ending.exec (h : Ending ls init t) (M : Machine V W) (env : Env V) (w : W) :
    M.exec ls env w =
      match M.straight init env w with
      | (es, .ok (env', w')) => (es, M.leave t env' w')
      | (es, .error w') => (es, .stop (.trapped w')) := by
  rw [h.eq, Machine.exec_append h.init]
  split
  · rw [Machine.exec_terminator h.last, append_nil]
  · rfl

theorem Ending.exec_jump (h : Ending ls init t) {M : Machine V W} {env env' : Env V}
    {w w' : W} {u : BlockId}
    {args : List (Option V)} (hjump : (M.exec ls env w).2 = .jump u args env' w') :
    (∃ es, M.straight init env w = (es, .ok (env', w'))) ∧ ∃ x ∈ t.exits, x.target = some u := by
  rw [h.exec] at hjump
  split at hjump
  · next es env₁ w₁ heq =>
    obtain ⟨x, hx, hu, -, rfl, rfl⟩ := Machine.leave_jump hjump
    exact ⟨⟨es, heq⟩, x, hx, hu⟩
  · cases hjump

theorem Ending.mem_last (h : Ending ls init t) : t ∈ ls := by
  rw [h.eq]
  exact mem_append_right _ mem_cons_self

theorem Ending.defines (h : Ending (g.lines b) init t) :
    g.Defines b v ↔ (∃ p ∈ g.params b, v = .param p) ∨ ∃ l ∈ init, v = .inst l.id := by
  refine or_congr_right ⟨?_, ?_⟩
  · rintro ⟨l, hl, hterm, rfl⟩
    rw [h.eq, mem_append, mem_singleton] at hl
    rcases hl with hl | rfl
    · exact ⟨l, hl, rfl⟩
    · cases hterm.symm.trans h.last
  · rintro ⟨l, hl, rfl⟩
    exact ⟨l, by rw [h.eq]; exact mem_append_left _ hl, h.init l hl, rfl⟩

theorem Ending.known_iff (h : Ending (g.lines b) init t) :
    Known g av b init v ↔ Constant v ∨ av b v ∨ g.Defines b v := by
  rw [h.defines]
  refine or_congr_right (or_congr_right (or_congr_right ⟨?_, ?_⟩))
  · rintro ⟨k, hk, -, rfl⟩
    exact ⟨k, hk, rfl⟩
  · rintro ⟨k, hk, rfl⟩
    exact ⟨k, hk, h.init k hk, rfl⟩

end Midlevel.Flow
