import SsaCodegen.Proofs.ConstProp.Transfer

/-!
# What a solution says about runs

A *solution* of constant propagation is closed under all that the solver looks at: the entry is
marked, what is known of an instruction in a marked block is no more than what its operands tell,
and the blocks that a branch can go to by what is known of its condition are marked. Whatever
computed it, a solution is right about every run, in every dialect whose instructions do what the
transfer function says.

## Main definitions

* `Constness.Admits` — a result agrees with what is known
* `Module.Solved` — a solution
* `Dialect.Respects` — the transfer function is right about a dialect

## Main results

* `Dialect.Respects.runFunc_right` — a solution is right about every run
-/

namespace SsaCodegen

namespace Constness

variable {lit : Int64 → W} {a b : Constness} {r : Option W}

/-- A result agrees with what is known. Of something that has not been looked at there must be no
result at all. -/
def Admits (lit : Int64 → W) : Constness → Option W → Prop
  | .top, _ => False
  | .const n, r => r = some (lit n)
  | .varying, _ => True

theorem Admits.meet_left (h : a.Admits lit r) : (a.meet b).Admits lit r := by
  cases a with
  | top => cases h
  | varying => cases b <;> trivial
  | const n =>
    cases b with
    | top => exact h
    | varying => trivial
    | const k =>
      rw [meet]
      split
      · exact h
      · trivial

theorem meet_comm (a b : Constness) : a.meet b = b.meet a := by
  cases a <;> cases b <;> simp only [meet]
  split
  · rename_i h
    rw [if_pos h.symm, h]
  · rename_i h
    rw [if_neg (Ne.symm h)]

theorem Admits.meet_right (h : b.Admits lit r) : (a.meet b).Admits lit r := by
  rw [meet_comm]
  exact h.meet_left

/-- An operator carried over to what is known of its arguments admits a result that is right when
both arguments are known. -/
theorem Admits.combine {eval : Int64 → Int64 → Option Int64} {x y : W} (ha : a.Admits lit (some x))
    (hb : b.Admits lit (some y))
    (hr : ∀ {n k c}, a = .const n → x = lit n → b = .const k → y = lit k → eval n k = some c →
      r = some (lit c)) : (combine eval a b).Admits lit r := by
  cases a with
  | top => cases ha
  | varying => cases b <;> trivial
  | const n =>
    cases b with
    | top => cases hb
    | varying => trivial
    | const k =>
      rw [Constness.combine]
      cases heval : eval n k with
      | none => trivial
      | some c => exact hr rfl (Option.some.inj ha) rfl (Option.some.inj hb) heval

end Constness

namespace Module

/-- An instruction stands in a block of a function that has been found reachable. -/
def Live (m : Module) (lists : BlockId → List ValueId) (f : FuncId) (v : ValueId) : Prop :=
  ∃ b, m.funcOf b = some f ∧ m.reachedOf b = true ∧ v ∈ lists b

/-- What the operands of an instruction tell has been taken into account. -/
def Settled (m : Module) (v : ValueId) : Prop :=
  (m.knownOf v).meet (m.transferOf v) = m.knownOf v

/-- A solution of constant propagation over a function. -/
structure Solved (m : Module) (lists : BlockId → List ValueId) (f : FuncId) : Prop where
  entry : ∀ {y b}, m.funcs[f.idx]? = some y → y.entry = some b → m.reachedOf b = true
  settled : ∀ {v}, m.Live lists f v → m.Settled v
  heads : ∀ {v}, m.Live lists f v → m.kindOf v = some (.inst .br) →
    ∀ c ∈ m.headsOf v, m.reachedOf c = true

/-- What is known of a value that is no instruction is what its kind says. -/
theorem Primed.knownOf_of_kind {m : Module} {v : ValueId} {k : ValueKind} (h : Primed m)
    (hk : m.kindOf v = some k) (hnone : k.asInst = none) : m.knownOf v = k.initial := by
  obtain ⟨x, hx, rfl⟩ := kindOf_eq_some.1 hk
  exact (valueField_eq hx).trans (h.known hx hnone)

end Module

/-- The transfer function is right about what a dialect makes of the live instructions of a
function, and constant conditions count as true when they are not zero. -/
structure Dialect.Respects (D : Dialect W σ) (m : Module) (lists : BlockId → List ValueId)
    (f : FuncId) : Prop where
  exec : ∀ {v k args} (world : σ), m.Live lists f v → m.kindOf v = some (.inst k) → k ≠ .phi →
    k.isTerminator = false →
    List.Forall₂ (fun o w => (m.knownOf o).Admits D.lit (some w)) (m.operandsOf v) args →
    (m.transferOf v).Admits D.lit (D.exec v args world).1
  test : ∀ {v cond thenLabel elseLabel n}, m.Live lists f v →
    m.kindOf v = some (.inst .br) → m.operandsOf v = [cond, thenLabel, elseLabel] →
    m.knownOf cond = .const n → D.test (D.lit n) = decide (n ≠ 0)

namespace Dialect.Respects

open SsaCodegen.Module

variable {D : Dialect W σ} {m : Module} {lists : BlockId → List ValueId} {f : FuncId}
  {env : Env W} {world : σ} {v : ValueId} {b : BlockId}

/-- The transfer function is right about a dialect in which a change of type changes nothing and
operators are right about constants. -/
theorem of_operators (hm : WellFormed m lists)
    (copy : ∀ {v k} (x : W) (world : σ), m.kindOf v = some (.inst k) → k = .sext ∨ k = .cast →
      (D.exec v [x] world).1 = some x)
    (binary : ∀ {v op l r n k c} (world : σ), m.Live lists f v →
      m.kindOf v = some (.inst (.binary op)) → m.operandsOf v = [l, r] → m.knownOf l = .const n →
      m.knownOf r = .const k → op.eval n k = some c →
      (D.exec v [D.lit n, D.lit k] world).1 = some (D.lit c))
    (compare : ∀ {v op l r n k} (world : σ), m.Live lists f v →
      m.kindOf v = some (.inst (.compare op)) → m.operandsOf v = [l, r] → m.knownOf l = .const n →
      m.knownOf r = .const k →
      (D.exec v [D.lit n, D.lit k] world).1 = some (D.lit (if op.eval n k then 1 else 0)))
    (test : ∀ {v cond thenLabel elseLabel n}, m.Live lists f v → m.kindOf v = some (.inst .br) →
      m.operandsOf v = [cond, thenLabel, elseLabel] → m.knownOf cond = .const n →
      D.test (D.lit n) = decide (n ≠ 0)) : D.Respects m lists f where
  exec {v k args} world hv hk hphi hterm hargs := by
    obtain ⟨b, hb, -, hmem⟩ := id hv
    have hfits := hm.fits hb hmem hk
    cases k with
    | phi => exact absurd rfl hphi
    | br | ret => cases hterm
    | load | store | gep | call | alloca =>
      rw [transferOf, hk]
      trivial
    | sext | cast =>
      obtain ⟨o, ho⟩ := List.length_eq_one_iff.1 hfits
      rw [ho] at hargs
      obtain ⟨x, hx, rfl⟩ := forall₂_singleton.1 hargs
      rw [copy x world hk (by simp)]
      simp only [transferOf, hk, ho]
      exact hx
    | binary op =>
      obtain ⟨l, r, ho⟩ := List.length_eq_two.1 hfits
      rw [ho] at hargs
      obtain ⟨x, y, hx, hy, rfl⟩ := forall₂_pair.1 hargs
      simp only [transferOf, hk, ho]
      refine hx.combine hy fun hl hxn hr hyk hc => ?_
      rw [hxn, hyk, binary world hv hk ho hl hr hc]
    | compare op =>
      obtain ⟨l, r, ho⟩ := List.length_eq_two.1 hfits
      rw [ho] at hargs
      obtain ⟨x, y, hx, hy, rfl⟩ := forall₂_pair.1 hargs
      simp only [transferOf, hk, ho]
      refine hx.combine hy fun hl hxn hr hyk hc => ?_
      rw [hxn, hyk, compare world hv hk ho hl hr]
      exact congrArg (Option.map D.lit) hc
  test := test

/-- The results so far agree with what is known. -/
def Agrees (D : Dialect W σ) (m : Module) (env : Env W) : Prop :=
  ∀ {v w}, env v = some w → (m.knownOf v).Admits D.lit (some w)

/-- An evaluation agrees with what is known. -/
def Right (D : Dialect W σ) (m : Module) (e : Event W) : Prop :=
  (m.knownOf e.inst).Admits D.lit e.result

theorem Agrees.record {e : Event W} (h : Agrees D m env) (he : Right D m e) :
    Agrees D m (Dialect.record env e) := by
  intro v w hv
  rw [Dialect.record] at hv
  by_cases hve : v = e.inst
  · subst hve
    rw [Function.update_self] at hv
    rw [← hv]
    exact he
  · rw [Function.update_of_ne hve] at hv
    exact h hv

/-- What is known of an operand is right about the word that it stands for. -/
theorem Agrees.read {w : W} (h : Agrees D m env) (hp : Primed m)
    (hv : D.read m env v = some w) : (m.knownOf v).Admits D.lit (some w) := by
  rw [Dialect.read] at hv
  split at hv
  · exact h hv
  · rename_i c hk
    rw [hp.knownOf_of_kind hk rfl]
    split at hv
    · rename_i n hn
      cases hv
      simp only [ValueKind.initial, hn]
      rfl
    · rename_i hn
      simp only [ValueKind.initial, hn]
      trivial
  · rename_i g hk
    rw [hp.knownOf_of_kind hk rfl]
    trivial
  · rename_i g i hk
    rw [hp.knownOf_of_kind hk rfl]
    trivial
  · rename_i b hk
    rw [hp.knownOf_of_kind hk rfl]
    trivial
  · cases hv

/-- What is known of a settled instruction admits what its operands tell. -/
theorem admits_of_settled {r : Option W} (hs : m.Settled v)
    (hr : (m.transferOf v).Admits D.lit r) : (m.knownOf v).Admits D.lit r := by
  rw [← show _ = _ from hs]
  exact hr.meet_right

/-- The operands of a terminator tell nothing. -/
theorem transferOf_terminator {k : InstKind} (hk : m.kindOf v = some (.inst k))
    (hterm : k.isTerminator = true) : m.transferOf v = .varying := by
  rw [transferOf, hk]
  cases k <;> cases hterm <;> rfl

/-! ## Phis -/

/-- The meet of what is known of several values admits what one of them does. -/
theorem foldl_meet_admits {r : Option W} {l : List ValueId} {acc : Constness}
    (h : acc.Admits D.lit r ∨ ∃ u ∈ l, (m.knownOf u).Admits D.lit r) :
    (l.foldl (fun acc u => acc.meet (m.knownOf u)) acc).Admits D.lit r := by
  induction l generalizing acc with
  | nil => exact h.resolve_right (by simp)
  | cons u rest ih =>
    refine ih ?_
    rcases h with h | ⟨u', hu', h⟩
    · exact .inl h.meet_left
    · rcases List.mem_cons.1 hu' with rfl | hu'
      · exact .inl h.meet_right
      · exact .inr ⟨u', hu', h⟩

/-- What the operands of a phi tell admits an incoming value whose block is marked. -/
theorem transferOf_phi_admits {value : ValueId} {pred : BlockId} {r : Option W}
    (hk : m.kindOf v = some (.inst .phi)) (hv : m.incomingFrom v pred = some value)
    (hpred : m.reachedOf pred = true) (hr : (m.knownOf value).Admits D.lit r) :
    (m.transferOf v).Admits D.lit r := by
  obtain ⟨⟨value', p⟩, hfind, rfl⟩ := Option.map_eq_some_iff.1 hv
  have hp : p = pred := by simpa using List.find?_some hfind
  subst hp
  rw [transferOf, hk]
  refine foldl_meet_admits (.inr ⟨value', List.mem_map.2 ⟨(value', p), ?_, rfl⟩, hr⟩)
  exact List.mem_filter.2 ⟨List.mem_of_find?_eq_some hfind, hpred⟩

/-- The evaluations of phis on the way from a marked block are right. -/
theorem phis_right (hp : Primed m) (henv : Agrees D m env) {pred : BlockId}
    (hpred : m.reachedOf pred = true) {vs : List ValueId} {events : List (Event W)}
    (hphi : ∀ v ∈ vs, m.kindOf v = some (.inst .phi) ∧ m.Settled v)
    (h : D.phis m env pred vs = some events) : ∀ e ∈ events, Right D m e := by
  induction vs generalizing events with
  | nil =>
    cases h
    nofun
  | cons v rest ih =>
    obtain ⟨w, hw, h⟩ := Option.bind_eq_some_iff.1 h
    obtain ⟨value, hvalue, hw⟩ := Option.bind_eq_some_iff.1 hw
    obtain ⟨events', h', rfl⟩ := Option.map_eq_some_iff.1 h
    obtain ⟨⟨hk, hs⟩, hrest⟩ := List.forall_mem_cons.1 hphi
    refine List.forall_mem_cons.2 ⟨?_, ih hrest h'⟩
    exact admits_of_settled hs (transferOf_phi_admits hk hvalue hpred (henv.read hp hw))

/-! ## The rest of a block -/

/-- A branch goes to one of its heads. -/
theorem mem_headsOf_branch {cond thenLabel elseLabel : ValueId} {w : W} {c : BlockId}
    (hD : D.Respects m lists f) (hv : m.Live lists f v) (hk : m.kindOf v = some (.inst .br))
    (ho : m.operandsOf v = [cond, thenLabel, elseLabel])
    (hw : (m.knownOf cond).Admits D.lit (some w))
    (hc : m.blockOf? (if D.test w then thenLabel else elseLabel) = some c) :
    c ∈ m.headsOf v := by
  refine List.mem_filterMap.2 ⟨_, ?_, hc⟩
  rw [headLabels, ho]
  dsimp only
  split
  · rename_i hknown
    rw [hknown] at hw
    cases hw
  · rename_i n hknown
    rw [hknown] at hw
    cases hw
    rw [hD.test hv hk ho hknown]
    split <;> simp_all
  · split <;> simp

section Sound

variable (hm : WellFormed m lists) (hs : m.Solved lists f) (hD : D.Respects m lists f)
include hm hs hD

theorem step_next {e : Event W} {world' : σ} (hv : m.Live lists f v) (henv : Agrees D m env)
    (h : D.step m env world v = .next e world') : Right D m e := by
  obtain ⟨k, args, hk, hphi, hterm, hargs, rfl, -⟩ := Dialect.step_eq_next h
  refine admits_of_settled (hs.settled hv) (hD.exec world hv hk hphi hterm ?_)
  exact (Dialect.readAll_eq_some.1 hargs).imp fun o w hw => henv.read hm.primed hw

theorem step_leave {e : Event W} {exit : Exit W} (hv : m.Live lists f v) (henv : Agrees D m env)
    (h : D.step m env world v = .leave e exit) :
    Right D m e ∧ ∀ c, exit = .goto c → m.funcOf c = some f ∧ m.reachedOf c = true := by
  have hright {k : InstKind} (hk : m.kindOf v = some (.inst k)) (hterm : k.isTerminator = true)
      (args : List W) : Right D m ⟨v, args, none⟩ := by
    refine admits_of_settled (hs.settled hv) ?_
    rw [transferOf_terminator hk hterm]
    trivial
  obtain ⟨b, hb, -, hmem⟩ := id hv
  have hhead {c : BlockId} (hk : m.kindOf v = some (.inst .br)) (hc : c ∈ m.headsOf v) :
      m.funcOf c = some f ∧ m.reachedOf c = true :=
    ⟨hm.headsOf_subset hb hmem hk hc, hs.heads hv hk c hc⟩
  rcases Dialect.step_eq_leave h with ⟨args, hk, -, rfl, rfl⟩ | ⟨dest, c, hk, ho, hc, rfl, rfl⟩ |
    ⟨cond, thenLabel, elseLabel, w, c, hk, ho, hw, hc, rfl, rfl⟩
  · exact ⟨hright hk rfl _, nofun⟩
  · refine ⟨hright hk rfl _, fun c' hc' => ?_⟩
    cases hc'
    refine hhead hk (List.mem_filterMap.2 ⟨dest, ?_, hc⟩)
    rw [headLabels, ho]
    exact List.mem_singleton.2 rfl
  · refine ⟨hright hk rfl _, fun c' hc' => ?_⟩
    cases hc'
    exact hhead hk (mem_headsOf_branch hD hv hk ho (henv.read hm.primed hw) hc)

/-- What a list of live instructions does agrees with what is known. -/
theorem code_right {l : List ValueId} (world : σ) (hl : ∀ v ∈ l, m.Live lists f v)
    (henv : Agrees D m env) :
    (∀ e ∈ (D.code m b env world l).1.events, Right D m e) ∧
      Agrees D m (D.code m b env world l).2 ∧
      ∀ c, (D.code m b env world l).1.exit = .goto c → m.funcOf c = some f ∧
        m.reachedOf c = true := by
  induction l generalizing env world with
  | nil => exact ⟨List.forall_mem_nil _, henv, by rintro _ ⟨⟩⟩
  | cons v rest ih =>
    obtain ⟨hv, hrest⟩ := List.forall_mem_cons.1 hl
    rw [Dialect.code]
    cases hstep : D.step m env world v with
    | next e world' =>
      have he := step_next hm hs hD hv henv hstep
      obtain ⟨hevents, henv', hexit⟩ := ih world' hrest (henv.record he)
      exact ⟨List.forall_mem_cons.2 ⟨he, hevents⟩, henv', hexit⟩
    | leave e exit =>
      obtain ⟨he, hexit⟩ := step_leave hm hs hD hv henv hstep
      exact ⟨List.forall_mem_cons.2 ⟨he, List.forall_mem_nil _⟩, henv, hexit⟩
    | stuck => exact ⟨List.forall_mem_nil _, henv, by rintro _ ⟨⟩⟩

/-- A visit to a marked block along a marked way agrees with what is known. -/
theorem visit_right {pred : Option BlockId} (world : σ) (hb : m.funcOf b = some f)
    (hreached : m.reachedOf b = true) (hpred : ∀ p, pred = some p → m.reachedOf p = true)
    (henv : Agrees D m env) :
    (D.visit m pred b env world).1.block = b ∧
      (∀ e ∈ (D.visit m pred b env world).1.events, Right D m e) ∧
      Agrees D m (D.visit m pred b env world).2 ∧
      ∀ c, (D.visit m pred b env world).1.exit = .goto c → m.funcOf c = some f ∧
        m.reachedOf c = true := by
  obtain ⟨phis, body, term, hlist, hlaid⟩ := hm.laid hb
  have hlive {v : ValueId} (hv : v ∈ phis ++ body ++ [term]) : m.Live lists f v :=
    ⟨b, hb, hreached, hlist ▸ hv⟩
  rw [hm.visit_eq D hb hlist hlaid]
  cases harrive : D.arrive m env pred phis with
  | none => exact ⟨rfl, nofun, henv, nofun⟩
  | some events =>
    have hevents : ∀ e ∈ events, Right D m e := by
      cases pred with
      | none =>
        cases harrive
        nofun
      | some p =>
        refine phis_right hm.primed henv (hpred p rfl) (fun v hv => ?_) harrive
        exact ⟨hlaid.isPhi hv, hs.settled (hlive (by simp [hv]))⟩
    have henv' : Agrees D m (events.foldl Dialect.record env) := by
      clear harrive
      induction events generalizing env with
      | nil => exact henv
      | cons e rest ih =>
        obtain ⟨he, hrest⟩ := List.forall_mem_cons.1 hevents
        exact ih (henv.record he) hrest
    obtain ⟨hcode, henv'', hexit⟩ := code_right (b := b) hm hs hD
      (l := body ++ [term]) (D.enter world) (fun v hv => hlive (by rw [List.append_assoc]; simp [hv])) henv'
    refine ⟨?_, fun e he => ?_, henv'', hexit⟩
    · exact Dialect.code_block ..
    · rcases List.mem_append.1 he with he | he
      · exact hevents e he
      · exact hcode e he

/-- Every visit of a run that comes to a marked block along a marked way is to a marked block, and
every evaluation agrees with what is known. -/
theorem run_right {n : Nat} {pred : Option BlockId} (hb : m.funcOf b = some f)
    (hreached : m.reachedOf b = true) (hpred : ∀ p, pred = some p → m.reachedOf p = true)
    (henv : Agrees D m env) :
    ∀ V ∈ D.run m n pred b env world, m.reachedOf V.block = true ∧ ∀ e ∈ V.events, Right D m e := by
  induction n generalizing pred b env world with
  | zero => exact List.forall_mem_nil _
  | succ n ih =>
    obtain ⟨hblock, hevents, henv', hexit⟩ :=
      visit_right hm hs hD world hb hreached hpred henv
    rw [Dialect.run]
    refine List.forall_mem_cons.2 ⟨⟨(congrArg m.reachedOf hblock).trans hreached, hevents⟩, ?_⟩
    split
    · rename_i c hc
      obtain ⟨hf, hr⟩ := hexit c hc
      refine ih hf hr (fun p hp => ?_) henv'
      cases hp
      exact hreached
    · exact List.forall_mem_nil _
    · exact List.forall_mem_nil _

/-- A solution is right about every run of its function. -/
theorem runFunc_right (world : σ) (n : Nat) :
    ∀ V ∈ D.runFunc m f world n, m.reachedOf V.block = true ∧ ∀ e ∈ V.events, Right D m e := by
  rw [Dialect.runFunc]
  split
  · rename_i entry hentry
    obtain ⟨y, hy, hentry⟩ := Option.bind_eq_some_iff.1 hentry
    have hb : m.funcOf entry = some f :=
      hm.owned.mem.2 ⟨y, hy, List.mem_of_head? hentry⟩
    exact run_right hm hs hD hb (hs.entry hy hentry) (by rintro _ ⟨⟩) (by rintro _ _ ⟨⟩)
  · exact List.forall_mem_nil _

end Sound

end Dialect.Respects

end SsaCodegen
