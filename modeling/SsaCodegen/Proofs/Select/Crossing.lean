import SsaCodegen.Proofs.Select.Shape

/-!
# Crossing an edge

Between the code of one block and the code of the next the machine carries out the phis of the next,
whatever the state that it is in. The copies for an edge stand in the block that the edge comes from
if that goes nowhere else, right before the jump, and else in a block on the edge that nothing else
leads to. Sources of copies that are constants or addresses are filled before: at the start of the
block, where they are safe from the code of the instructions, or in the block on the edge.

No order of definitions and uses is asked for. What is asked of the function is that its phis list
each predecessor of their block once and nothing else.

## Main definitions

* `Target.Route` — the code on the way from one block to another
* `Target.Leads` — what a run does that takes the way
* `Scope.Ends` — what the code of a terminator ends with
* `Scope.Composed` — what a block of the function is made of
* `Scope.Crosses` — the code on the way along an edge, and what it does

## Main results

* `Scope.IsOf.lowerInsts_runs` — the code of instructions gets through from every state
* `Scope.Selected.composed` — what a block of the function is made of
* `Module.selectFunc_crosses` — every edge carries out the phis at its end
-/

namespace SsaCodegen

open Target SelectM Registers

/-! ## Code that gets through -/

namespace Module

variable {m : Module} {lists : BlockId → List ValueId}

/-- A platform that knows how many arguments the functions of a module take. -/
def suited (m : Module) (p : Platform) : Platform :=
  { p with arity := fun n => (m.funcs[n]?.map fun y => y.params.length).getD 0 }

theorem WellFormed.suits (hm : m.WellFormed lists) (f : FuncId) (p : Platform) :
    m.Suits f (m.suited p) := by
  intro b v callee hb hv hk
  have hb := hm.owned.mem_blocksOf.1 hb
  rw [hm.instsOf_eq hb] at hv
  obtain ⟨y, hy, hlen⟩ := hm.fits hb hv hk
  show (m.funcs[callee.idx]?.map fun y => y.params.length).getD 0 = _
  rw [hlen, hy]
  rfl

end Module

namespace Scope

variable {sc : Scope} {f : FuncId} {lists : BlockId → List ValueId} {p : Platform}
  {s s' : Registers} {b : BlockId} {v : ValueId} {saves : Saves} {edges : EdgeBlocks} {code : Code}

/-- Operands have words in every state, if only by chance. -/
theorem exists_words (sc : Scope) (p : Platform) (S : Registers) (st : State)
    (vs : List ValueId) : ∃ args, List.Forall₂ (sc.Stands p S st) vs args := by
  induction vs with
  | nil => exact ⟨[], .nil⟩
  | cons v vs ih =>
    obtain ⟨args, hargs⟩ := ih
    refine ⟨(sc.module.word? p S.held st v).getD 0 :: args, .cons (stands_iff.2 ?_) hargs⟩
    intro x hx
    rw [hx]
    rfl

namespace IsOf

variable (H : sc.IsOf f lists) (hb : sc.module.funcOf b = some f)
include H hb

/-- The code of an instruction that is no terminator gets through from every state. -/
theorem lowerInst_runs {k : InstKind} (hv : v ∈ lists b)
    (hk : sc.module.kindOf v = some (.inst k)) (hterm : k.isTerminator = false) (hs : s.Wf)
    (h : sc.lowerInst saves edges b v s = .ok (code, s')) : Runs p code := by
  by_cases hphi : k = .phi
  · rw [hphi] at hk
    rw [(lowerInst_phi hk h).1]
    exact .nil p
  · have H' : sc.IsFor f lists (sc.module.suited p) ⟨sc.frame, 0, fun _ => 0⟩ :=
      ⟨H, rfl, H.wellFormed.suits f p⟩
    rcases H'.lowerInst_ok hb hv hk hphi hterm hs h with ⟨-, rfl, -⟩ | ⟨-, hperforms⟩
    · exact .nil p
    · let st : State := ⟨fun _ => 0, ⟨fun _ => 0, []⟩⟩
      obtain ⟨args, hargs⟩ :=
        sc.exists_words (sc.module.suited p) s' st (sc.module.operandsOf v)
      have hsp : st.get State.sp = 0 := rfl
      obtain ⟨st', hdoes, -⟩ := hperforms.evaluates .refl hargs hsp
      exact hdoes.runs p

theorem lowerInsts_runs {vs : List ValueId} (hvs : ∀ v ∈ vs, v ∈ lists b ∧
      ∃ k, sc.module.kindOf v = some (.inst k) ∧ k.isTerminator = false) (hs : s.Wf)
    (h : sc.lowerInsts saves edges b vs s = .ok (code, s')) : Runs p code := by
  induction vs generalizing code s with
  | nil =>
    obtain ⟨rfl, -⟩ := pure_ok.1 h
    exact .nil p
  | cons v vs ih =>
    obtain ⟨⟨hv, k, hk, hterm⟩, hvs⟩ := List.forall_mem_cons.1 hvs
    obtain ⟨here, later, s₁, hhere, hlater, rfl⟩ := lowerInsts_cons h
    have hs₁ := (lowerInst_grows hs hhere).wf hs
    exact (H.lowerInst_runs hb hv hk hterm hs hhere).append (ih hvs hs₁ hlater)

end IsOf

/-- The code of instructions that are no terminators writes no register that is set apart. -/
theorem lowerInsts_spares {K : Set Reg} (hK : ∀ r, .phys r ∉ K) {vs : List ValueId}
    (hvs : ∀ v ∈ vs, ∃ k, sc.module.kindOf v = some (.inst k) ∧ k.isTerminator = false) :
    Keeps K (sc.lowerInsts saves edges b vs) fun code => ∀ i ∈ code, ∀ r ∈ K, i.dst ≠ some r := by
  induction vs with
  | nil => exact .pure (List.forall_mem_nil _)
  | cons v vs ih =>
    obtain ⟨⟨k, hk, hterm⟩, hvs⟩ := List.forall_mem_cons.1 hvs
    have hhere : Keeps K (sc.lowerInst saves edges b v) fun code =>
        ∀ i ∈ code, ∀ r ∈ K, i.dst ≠ some r := by
      refine lowerInst_keeps (fun r _ => hK r) ?_ ?_ ?_
      · intro _ code hcode i hi r hr heq
        exact (hcode i hi).2.2 r heq hr
      · intro callee _ setup rest hsetup hrest i hi r hr heq
        rcases List.mem_append.1 hi with hi | hi
        · exact (hsetup i hi).2.2 r heq hr
        · rcases List.mem_cons.1 hi with rfl | hi
          · cases heq
          · exact (hrest i hi).2.2 r heq hr
      · intro hret
        cases hk.symm.trans hret
        cases hterm
    refine .bind hhere fun here hspares => .bind (ih hvs) fun later hspares' => .pure ?_
    intro i hi
    exact (List.mem_append.1 hi).elim (hspares i) (hspares' i)

/-- The code on entry gets through from every state. -/
theorem IsOf.prologue_runs (H : sc.IsOf f lists) {y : Func}
    (hy : sc.module.funcs[f.idx]? = some y)
    (h : sc.prologue y.params {} = .ok ((saves, code), s)) : Runs p code := by
  intro st
  have hcalled := Module.called_callOf sc.module f sc.frame st
  have hnodup := H.wellFormed.owned.params_nodup hy
  obtain ⟨-, hcode⟩ := prologue_ok (p := p) (a := sc.module.callOf f sc.frame st) H.target .empty
    rfl hnodup h
  obtain ⟨st', hdoes, -⟩ := hcode .refl hcalled.sp fun {i v} hv =>
    hcalled.args (by rwa [Module.paramsOf_of_func hy])
  exact ⟨st', hdoes⟩

end Scope

/-! ## Control transfers -/

/-- A test goes to a block or falls through. -/
structure Target.Inst.Tests (i : Inst) (n : Nat) : Prop where
  op : i.op.isBranch = true
  target : ∀ k, .block k ∈ i.srcs → k = n
  step : ∀ p st, i.step p st = .goto n ∨ i.step p st = .fall

namespace Scope

variable {sc : Scope} {f : FuncId} {lists : BlockId → List ValueId} {p : Platform}
  {s s' : Registers} {b : BlockId} {v : ValueId} {saves : Saves} {edges : EdgeBlocks} {code : Code}

/-- What the code of a terminator ends with: code `run` that gets through to the control transfers
`exit`. -/
inductive Ends (sc : Scope) (p : Platform) (edges : EdgeBlocks) (b : BlockId) (t : ValueId)
    (run : Code) : Code → Prop where
  | ret : Straight run → sc.module.exitsOf t = [] → Ends sc p edges b t run [⟨.ret, none, []⟩]
  | jump {c : BlockId} {n : Nat} : run = [] → (sc.module.operandsOf t).length = 1 →
    sc.module.exitsOf t = [c] → sc.Targets edges b c n → Ends sc p edges b t run [.jump n]
  | fork {test : Inst} {c c' : BlockId} {n n' : Nat} : Runs p run →
    (sc.module.operandsOf t).length = 3 → sc.module.exitsOf t = [c, c'] → test.Tests n →
    sc.Targets edges b c n → sc.Targets edges b c' n' → Ends sc p edges b t run [test, .jump n']

theorem regOf_runs (ht : sc.target = riscv32) (p : Platform) {user : ValueId} :
    Keeps ∅ (sc.regOf user v) fun q => Runs p q.2 := by
  intro s s' q hs h
  obtain ⟨r, code⟩ := q
  obtain ⟨hg, -, hcode⟩ := regOf_sourced (p := p) (congrArg Spec.zero ht) hs.wf h
  refine ⟨hg, fun st => ?_⟩
  obtain ⟨st', hdoes, -⟩ := hcode st
  exact ⟨st', hdoes⟩

theorem lowerTest_runs (ht : sc.target = riscv32) {cond : ValueId} {dest : Nat} :
    Keeps ∅ (sc.lowerTest v cond dest) fun code =>
      ∃ run i, code = run ++ [i] ∧ Runs p run ∧ i.Tests dest := by
  refine .lookup fun fused => ?_
  split
  · rename_i op
    refine .lookup fun l => .bind (regOf_runs ht p) fun q hl => .lookup fun r => ?_
    refine .bind (regOf_runs ht p) fun q' hr => .pure ⟨_, _, rfl, hl.append hr, ?_⟩
    constructor
    · cases op <;> rfl
    · simp
    · intro p st
      simp only [Inst.step, CmpOp.branch?_branchOp]
      split
      · exact .inl rfl
      · exact .inr rfl
  · refine .bind (regOf_runs ht p) fun q hq => .pure ⟨_, _, rfl, hq, ?_⟩
    constructor
    · rfl
    · simp
    · intro p st
      simp only [Inst.step, if_true]
      split
      · exact .inl rfl
      · exact .inr rfl

/-- The code of a terminator. -/
theorem lowerInst_ends {t : ValueId} {k : InstKind} (ht : sc.target = riscv32)
    (hk : sc.module.kindOf t = some (.inst k)) (hterm : k.isTerminator = true)
    (hfits : sc.module.Fits f k (sc.module.operandsOf t)) (hs : s.Wf)
    (h : sc.lowerInst saves edges b t s = .ok (code, s')) :
    ∃ run exit, code = run ++ exit ∧ sc.Ends p edges b t run exit := by
  cases k with
  | br =>
    rw [lowerInst_br hk] at h
    rcases hfits with ⟨dest, ho, -⟩ | ⟨cond, thenLabel, elseLabel, ho, hcond, -⟩
    · obtain ⟨-, c, n, hc, htargets, rfl⟩ := lowerBr_jump ho h
      refine ⟨[], [.jump n], rfl, .jump rfl ?_ ?_ htargets⟩
      · rw [ho]
        rfl
      · rw [Module.exitsOf, ho, List.filterMap_cons_some hc, List.filterMap_nil]
    · obtain ⟨c, n, c', n', testCode, hc, htargets, hc', htargets', hcode, rfl⟩ :=
        lowerBr_parts ho h
      obtain ⟨-, run, test, rfl, hrun, htest⟩ := lowerTest_runs (p := p) ht hs.apart hcode
      refine ⟨run, [test, .jump n'], List.append_assoc ..,
        .fork hrun ?_ ?_ htest htargets htargets'⟩
      · rw [ho]
        rfl
      · have hnone : sc.module.blockOf? cond = none :=
          Option.isNone_iff_eq_none.1 (Module.isData_iff.2 hcond)
        rw [Module.exitsOf, ho, List.filterMap_cons_none hnone, List.filterMap_cons_some hc,
          List.filterMap_cons_some hc', List.filterMap_nil]
  | ret =>
    rw [lowerInst_ret hk] at h
    obtain ⟨-, calm, rfl, hcalm⟩ := lowerReturn_keeps hs.apart h
    have hlen : (sc.module.operandsOf t).length ≤ 1 := by
      obtain ⟨y, -, hlen⟩ := hfits
      rw [hlen]
      split <;> omega
    exact ⟨calm, _, rfl, .ret hcalm.straight (exitsOf_of_lowerReturn hlen h)⟩
  | _ => cases hterm

namespace Ends

variable {t : ValueId} {run exit : Code} (h : sc.Ends p edges b t run exit)
include h

theorem straight : Straight run := by
  cases h with
  | ret hrun => exact hrun
  | jump hrun =>
    rw [hrun]
    exact List.forall_mem_nil _
  | fork hrun => exact hrun.straight

theorem control : ∀ i ∈ exit, i.op.isControl = true := by
  cases h with
  | ret => exact Closes.ret.control
  | jump => exact (Closes.jump _).control
  | fork _ _ _ htest => exact (Closes.branch _ htest.op).control

/-- Control transfers lead to blocks of the function or on edges. -/
theorem targets {i : Inst} {x : Nat} (hi : i ∈ exit) (hx : .block x ∈ i.srcs) :
    ∃ c, sc.Targets edges b c x := by
  cases h with
  | ret =>
    rw [List.mem_singleton.1 hi] at hx
    cases hx
  | @jump c n _ _ _ htargets =>
    rw [List.mem_singleton.1 hi] at hx
    have hx : x = n := by simpa [Inst.jump] using hx
    exact ⟨c, hx ▸ htargets⟩
  | @fork test c c' n n' _ _ _ htest htargets htargets' =>
    rcases List.mem_cons.1 hi with rfl | hi
    · exact ⟨c, htest.target x hx ▸ htargets⟩
    · rw [List.mem_singleton.1 hi] at hx
      have hx : x = n' := by simpa [Inst.jump] using hx
      exact ⟨c', hx ▸ htargets'⟩

end Ends

end Scope

/-! ## What blocks are made of -/

namespace Scope

variable {sc : Scope} {f : FuncId} {lists : BlockId → List ValueId} {p : Platform}
  {s₁ s₂ S : Registers} {b c : BlockId} {t : ValueId} {i n : Nat} {saves : Saves}
  {entry K C run exit : Code} {seq : Copies.Sequence Reg} {d : Draft} {blocks : List Target.Block}

/-- What a block of the function is made of: the code on entry if it is the first, the code `K` that
fills the sources of copies, the code `C` of its instructions and `run` of its terminator, the copies
and the control transfers `exit`. -/
structure Composed (sc : Scope) (p : Platform) (lists : BlockId → List ValueId) (saves : Saves)
    (entry : Code) (s₁ s₂ S : Registers) (d : Draft) (blocks : List Target.Block) (i : Nat)
    (b : BlockId) (t : ValueId) (K C run exit : Code) (seq : Copies.Sequence Reg) : Prop where
  placed : sc.Placed p s₁ s₂ S d i K seq
  lowered : ∃ r r', sc.lowerInsts saves d.edges b (lists b) r = .ok (C ++ run ++ exit, r')
  runs : Runs p C
  spares : ∀ j ∈ C, ∀ q, Scratch s₁ s₂ q → j.dst ≠ some q
  ends : sc.Ends p d.edges b t run exit
  succs : sc.module.succsOf b = (sc.module.exitsOf t).eraseDups
  branches : sc.module.branches b = decide ((sc.module.operandsOf t).length = 3)
  insts : ∃ B, blocks[i]? = some B ∧
    B.insts = (if i = 0 then entry else []) ++ K ++ C ++ run ++ seq.code ++ exit

namespace Selected

variable (X : sc.Selected p lists saves entry s₁ s₂ S d blocks) (H : sc.IsOf f lists)
  (hentry : Straight entry)
include X H hentry

theorem composed (hi : sc.blocks[i]? = some b) : ∃ t K C run exit seq,
    sc.Composed p lists saves entry s₁ s₂ S d blocks i b t K C run exit seq := by
  have hb := H.mem_blocks.1 (List.mem_of_getElem? hi)
  obtain ⟨body, t, hlist, -, hlaid, hsuccs⟩ := H.wellFormed.layout hb
  obtain ⟨k, hk, hterm⟩ := hlaid.isTerm
  obtain ⟨K, seq, code, r, r', B₀, B, hplaced, hg, -, hlower, hB₀, hB, hinsts⟩ := X.own hi
  have hr := hg.wf X.wf
  have hsplit := hlower
  rw [hlist] at hsplit
  obtain ⟨C, T, r₁, hC, hlast, rfl⟩ := lowerInsts_concat hsplit
  have hr₁ := (lowerInsts_grows hr hC).wf hr
  obtain ⟨run, exit, rfl, hends⟩ := lowerInst_ends (p := p) H.target hk hterm
    (hlaid.fits (by simp) hk) hr₁ hlast
  have hinit : ∀ v ∈ sc.module.phisOf b ++ body, v ∈ lists b ∧
      ∃ k, sc.module.kindOf v = some (.inst k) ∧ k.isTerminator = false := by
    intro v hv
    refine ⟨by rw [hlist]; exact List.mem_append_left _ hv, ?_⟩
    rcases List.mem_append.1 hv with hv | hv
    · exact ⟨.phi, hlaid.isPhi hv, rfl⟩
    · obtain ⟨k, hk, -, hterm⟩ := hlaid.isBody hv
      exact ⟨k, hk, hterm⟩
  -- the sources of copies are set apart from the code of instructions
  have hapart : r.Apart { q | Scratch s₁ s₂ q } := by
    refine Registers.Apart.grows ⟨X.wf, fun q hq => hq.has.knows, fun hv hq => hq.2 _ hv⟩ hg
  have hspares := (lowerInsts_spares (K := { q | Scratch s₁ s₂ q })
    (fun r hq => (s₁.knows_phys r).not_scratch hq) (fun v hv => (hinit v hv).2) hapart hC).2
  have hruns := H.lowerInsts_runs (p := p) hb hinit hr hC
  have hstraight : Straight ((if i = 0 then entry else []) ++ K ++ C ++ run) :=
    (((hentry.first i).append hplaced.delivers.straight).append hruns.straight).append
      hends.straight
  refine ⟨t, K, C, run, exit, seq, hplaced, ⟨r, r', ?_⟩, hruns, hspares, hends, hsuccs,
    H.wellFormed.branches_eq hb hlist, B, hB, ?_⟩
  · rw [List.append_assoc]
    exact hlower
  · rw [← List.append_assoc, ← List.append_assoc] at hB₀
    rw [hinsts, B₀.insertBeforeExit_eq hB₀ hstraight hends.control]

/-- Nothing leads to a block on an edge but the block that the edge comes from. -/
theorem eq_of_target {x j : Nat} {B : Target.Block} {inst : Inst} (hi : sc.blocks[i]? = some b)
    (hx : d.edges.lookup (b, c) = some x) (hB : blocks[j]? = some B) (hinst : inst ∈ B.insts)
    (hop : inst.op.isControl = true) (hsrc : .block x ∈ inst.srcs) : j = i := by
  have hle := (X.edge hx).1
  have hlt {k : Nat} {c : BlockId} (hk : sc.blocks.idxOf? c = some k) : k < sc.blocks.length :=
    (List.idxOf?_eq_some_iff.1 hk).1
  have hexit {code exit : Code} (hcode : Straight code) (hinsts : B.insts = code ++ exit) :
      inst ∈ exit := by
    rw [hinsts] at hinst
    refine (List.mem_append.1 hinst).resolve_left fun hmem => ?_
    rw [hcode inst hmem] at hop
    cases hop
  cases hj : sc.blocks[j]? with
  | none =>
    obtain ⟨⟨pred, succ⟩, he⟩ := X.covers (List.getElem?_eq_none_iff.1 hj) hB
    obtain ⟨-, -, K, seq, k, B', hplaced, hk, hB', hinsts⟩ := X.edge he
    cases hB.symm.trans hB'
    have hmem := hexit (hplaced.delivers.straight.append seq.straight_code) hinsts
    rw [List.mem_singleton.1 hmem] at hsrc
    have hxk : x = k := by simpa [Inst.jump] using hsrc
    have hlt := hlt hk
    omega
  | some b' =>
    obtain ⟨t, K, C, run, exit, seq, Y⟩ := X.composed H hentry hj
    obtain ⟨B', hB', hinsts⟩ := Y.insts
    cases hB.symm.trans hB'
    have hstraight : Straight ((if j = 0 then entry else []) ++ K ++ C ++ run ++ seq.code) :=
      ((((hentry.first j).append Y.placed.delivers.straight).append Y.runs.straight).append
        Y.ends.straight).append seq.straight_code
    obtain ⟨c', k, hk, hxk⟩ := Y.ends.targets (hexit hstraight hinsts) hsrc
    cases hl : d.edges.lookup (b', c') with
    | none =>
      rw [hl, Option.getD_none] at hxk
      have hlt := hlt hk
      omega
    | some n =>
      rw [hl, Option.getD_some] at hxk
      obtain rfl : b' = b := congrArg Prod.fst (X.inj (hxk ▸ hl) hx)
      exact Option.some.inj ((H.idxOf?_eq_some.2 hj).symm.trans (H.idxOf?_eq_some.2 hi))

end Selected

end Scope

/-! ## The way along an edge -/

/-- The way from block `i` to block `k`, which leaves block `i` for block `x`, where blocks from
number `own` on are on edges. Block `i` begins with `front` and ends with the control transfers `exit`.
Between the two, and in a block on the edge, the machine comes across nothing but `path`. -/
inductive Target.Route (blocks : List Target.Block) (own i k : Nat) (front path : Code) :
    Nat → Code → Prop where
  /-- The block goes nowhere else. -/
  | jump {B : Target.Block} : blocks[i]? = some B → B.insts = front ++ path ++ [.jump k] →
    Route blocks own i k front path k [.jump k]
  /-- The block goes on after a test, and there is nothing on the way. -/
  | branch {B : Target.Block} {test : Inst} {n n' : Nat} : blocks[i]? = some B →
    B.insts = front ++ [test, .jump n'] → path = [] → test.Tests n → k = n ∨ k = n' →
    Route blocks own i k front path k [test, .jump n']
  /-- There is a block on the edge, to which no other block leads. -/
  | detour {B B' : Target.Block} {test : Inst} {n n' x : Nat} : blocks[i]? = some B →
    B.insts = front ++ [test, .jump n'] → test.Tests n → x = n ∨ x = n' → own ≤ x →
    blocks[x]? = some B' → B'.insts = path ++ [.jump k] →
    (∀ (j : Nat) (C : Target.Block), blocks[j]? = some C → ∀ inst ∈ C.insts,
      inst.op.isControl = true → .block x ∈ inst.srcs → j = i) →
    Route blocks own i k front path x [test, .jump n']

/-- A run that leaves block `i` for block `x` comes to block `k`, directly or over `x`. It does
`front` and `path` before, and nothing else that changes the state. -/
def Target.Leads (p : Platform) (blocks : List Target.Block) (i x k : Nat) (front path : Code) :
    Prop :=
  ∀ st₀ st st', Does p front st₀ st → Does p path st st' →
    (run p blocks 1 i st₀).map Visit.exit = [.goto x] →
    ∃ passed : List Visit, (passed.map Visit.block = [i] ∨ passed.map Visit.block = [i, x]) ∧
      ∀ n, run p blocks (passed.length + n) i st₀ = passed ++ run p blocks n k st'

theorem Target.exec_jump (p : Platform) (n : Nat) (st : State) :
    exec p [.jump n] st = (.goto n, st) := rfl

/-- A block that ends with a test and a jump is left in the state before them. -/
theorem Target.Inst.Tests.leave {p : Platform} {blocks : List Target.Block} {B : Target.Block}
    {test : Inst} {front : Code} {i n n' x : Nat} {st₀ st : State} (h : test.Tests n)
    (hB : blocks[i]? = some B) (hinsts : B.insts = front ++ [test, .jump n'])
    (hfront : Does p front st₀ st) (hrun : (run p blocks 1 i st₀).map Visit.exit = [.goto x]) :
    exec p B.insts st₀ = (.goto x, st) := by
  have hstate : (exec p [test, .jump n'] st).2 = st := by
    rw [exec]
    rcases h.step p st with hstep | hstep <;> rw [hstep]
    rfl
  rw [run, hB] at hrun
  have hexit : (exec p B.insts st₀).1 = .goto x := (List.cons.inj hrun).1
  rw [hinsts, hfront.exec] at hexit ⊢
  exact Prod.ext hexit hstate

theorem Target.Route.leads {p : Platform} {blocks : List Target.Block} {own i k x : Nat}
    {front path exit : Code} (h : Route blocks own i k front path x exit) :
    Leads p blocks i x k front path := by
  intro st₀ st st' hfront hpath hrun
  cases h with
  | jump hB hinsts =>
    have hexec := (hfront.append hpath).exec [.jump k]
    rw [← hinsts, exec_jump] at hexec
    refine ⟨[⟨i, .goto k, st'⟩], .inl rfl, fun n => ?_⟩
    rw [List.length_singleton, Nat.add_comm]
    exact run_goto hB hexec n
  | branch hB hinsts hnil htest hk =>
    subst hnil
    obtain rfl : st = st' := congrArg Prod.snd (hpath.exec [.jump k])
    refine ⟨[⟨i, .goto k, st⟩], .inl rfl, fun n => ?_⟩
    rw [List.length_singleton, Nat.add_comm]
    exact run_goto hB (htest.leave hB hinsts hfront hrun) n
  | detour hB hinsts htest hx hown hB' hinsts' honly =>
    have hexec := hpath.exec [.jump k]
    rw [← hinsts', exec_jump] at hexec
    refine ⟨[⟨i, .goto x, st⟩, ⟨x, .goto k, st'⟩], .inr rfl, fun n => ?_⟩
    have hlen : [(⟨i, .goto x, st⟩ : Visit), ⟨x, .goto k, st'⟩].length + n = n + 1 + 1 := by
      simp only [List.length_cons, List.length_nil]
      omega
    rw [hlen, run_goto hB (htest.leave hB hinsts hfront hrun), run_goto hB' hexec]
    rfl

/-- The registers of values, the machine registers and the world are as they were. -/
structure Unchanged (held : List (ValueId × Reg)) (st st' : State) : Prop where
  kept : ∀ v r, held.lookup v = some r → st'.get r = st.get r
  phys : ∀ r, st'.get (.phys r) = st.get (.phys r)
  world : st'.world = st.world

/-- Code that gets through and changes nothing that matters. -/
def Idle (p : Platform) (held : List (ValueId × Reg)) (code : Code) : Prop :=
  ∀ st, ∃ st', Does p code st st' ∧ Unchanged held st st'

theorem Quiet.unchanged {s s' S : Registers} {st st' : State} (h : Quiet s s' st st')
    (hS : Grows s' S) : Unchanged S.held st st' where
  kept _ _ hr := h.get (hS.not_scratch hr)
  phys r := h.get (s.knows_phys r).not_scratch
  world := h.world

theorem Idle.nil (p : Platform) (held : List (ValueId × Reg)) : Idle p held [] := fun st =>
  ⟨st, .nil, fun _ _ _ => rfl, fun _ => rfl, rfl⟩

/-- Phis may be carried out after something that changed nothing. -/
theorem Module.Carries.of_unchanged {m : Module} {p : Platform} {held : List (ValueId × Reg)}
    {b c : BlockId} {st st₁ st' : State} (hc : m.Carries p held b c st₁ st')
    (h : Unchanged held st st₁) : m.Carries p held b c st st' where
  phis phi hphi := by
    obtain ⟨o, r, w, ho, hr, hw, hget⟩ := hc.phis phi hphi
    rw [word?_congr h.kept] at hw
    exact ⟨o, r, w, ho, hr, hw, hget⟩
  kept v r hv hr := (hc.kept v r hv hr).trans (h.kept v r hr)
  phys r := (hc.phys r).trans (h.phys r)
  world := hc.world.trans h.world

/-- Without phis there is nothing to carry out. -/
theorem Module.Carries.of_phisOf_eq_nil {m : Module} {c : BlockId} (h : m.phisOf c = [])
    (p : Platform) (held : List (ValueId × Reg)) (b : BlockId) (st : State) :
    m.Carries p held b c st st where
  phis phi hphi := by
    rw [h] at hphi
    cases hphi
  kept _ _ _ _ := rfl
  phys _ := rfl
  world := rfl

namespace Scope

/-- The start of block `i`, which stands for `b`: the code on entry if it is the first block, code
that changes nothing that matters, and the code of the instructions of `b` without the control
transfers `exit` that it ends with. -/
def Opens (sc : Scope) (p : Platform) (params : List ValueId) (held : List (ValueId × Reg))
    (i : Nat) (b : BlockId) (front exit : Code) : Prop :=
  ∃ saves entry s₀ edges r r' fill body, sc.prologue params {} = .ok ((saves, entry), s₀) ∧
    sc.lowerInsts saves edges b (sc.module.instsOf b) r = .ok (body ++ exit, r') ∧
    Idle p held fill ∧ front = (if i = 0 then entry else []) ++ fill ++ body

/-- The code on the way along the edge from `b` to `c`, and what it does: after the code of `b`, code
`fill` that changes nothing that matters and the moves for some copies, all of which belong to the
edge. From every state at the start of `b` the machine comes to the first of them, and from there to
the end of the way, where it has carried out the phis of `c`. -/
structure Crosses (sc : Scope) (p : Platform) (params : List ValueId)
    (blocks : List Target.Block) (held : List (ValueId × Reg)) (b c : BlockId)
    (front fill moves : Code) (copies : List (Copy Reg)) : Prop where
  route : ∃ i x k exit, sc.blocks[i]? = some b ∧ sc.blocks[k]? = some c ∧
    Route blocks sc.blocks.length i k front (fill ++ moves) x exit ∧
    Leads p blocks i x k front (fill ++ moves) ∧ sc.Opens p params held i b front exit
  idle : Idle p held fill
  sequence : ∃ fresh seq, Copies.sequentialize fresh copies = .ok seq ∧ moves = seq.code
  belongs : ∀ q ∈ copies, sc.module.CopyFor held b c q
  carries : ∀ st₀, ∃ st st', Does p front st₀ st ∧ Does p (fill ++ moves) st st' ∧
    sc.module.Carries p held b c st st'

variable {sc : Scope} {f : FuncId} {lists : BlockId → List ValueId} {p : Platform}
  {s₀ s₁ s₂ S : Registers} {b c : BlockId} {t : ValueId} {i n : Nat} {saves : Saves}
  {entry K C run exit : Code} {seq : Copies.Sequence Reg} {d : Draft} {blocks : List Target.Block}
  {params : List ValueId}

section Composed

variable (X : sc.Selected p lists saves entry s₁ s₂ S d blocks) (H : sc.IsOf f lists)
  (hentry : sc.prologue params {} = .ok ((saves, entry), s₀)) (hruns : Runs p entry)
  (hi : sc.blocks[i]? = some b)
  (Y : sc.Composed p lists saves entry s₁ s₂ S d blocks i b t K C run exit seq)

include X H hentry hi Y in
theorem Composed.opens : sc.Opens p params S.held i b
    ((if i = 0 then entry else []) ++ K ++ (C ++ run)) exit := by
  have hb := H.mem_blocks.1 (List.mem_of_getElem? hi)
  obtain ⟨r, r', hlower⟩ := Y.lowered
  rw [← H.wellFormed.instsOf_eq hb] at hlower
  refine ⟨saves, entry, s₀, d.edges, r, r', K, C ++ run, hentry, hlower, fun st => ?_, rfl⟩
  obtain ⟨st', hdoes, hquiet, -⟩ := Y.placed.delivers st
  exact ⟨st', hdoes, hquiet.unchanged X.values⟩

include hruns Y in
/-- From every state the machine gets through the code of the instructions, with the sources of the
copies filled. -/
theorem Composed.reaches (st₀ : State) :
    ∃ st, Does p ((if i = 0 then entry else []) ++ K ++ C) st₀ st ∧
      ∀ q ∈ d.pendingOf i, s₂.Has q.src ∧ ∃ e ∈ sc.arrivals,
        sc.holder? d e.pred e.succ = some i ∧ s₂.held.lookup e.phi = some q.dst ∧
        sc.Sourced p s₁ s₂ st e.value q.src := by
  obtain ⟨st₁, hfirst⟩ : ∃ st₁, Does p (if i = 0 then entry else []) st₀ st₁ := by
    split
    · exact hruns st₀
    · exact ⟨st₀, .nil⟩
  obtain ⟨st₂, hfill, -, hsourced⟩ := Y.placed.delivers st₁
  obtain ⟨st, hbody⟩ := Y.runs st₂
  refine ⟨st, (hfirst.append hfill).append hbody, fun q hq => ?_⟩
  obtain ⟨hhas, e, he, hn, hheld, hsource⟩ := hsourced q hq
  refine ⟨hhas, e, he, hn, hheld, hsource.mono .refl .refl fun hscratch => ?_⟩
  refine hbody.get_eq ?_ fun j hj => Y.spares j hj q.src hscratch
  obtain ⟨k, hk, -⟩ := hhas
  rw [hk]
  rfl

end Composed

namespace Selected

variable (X : sc.Selected p lists saves entry s₁ s₂ S d blocks) (H : sc.IsOf f lists)
  (hphis : sc.module.PhisMatchPreds f)
  (hentry : sc.prologue params {} = .ok ((saves, entry), s₀)) (hruns : Runs p entry)
  (hi : sc.blocks[i]? = some b) (hc : c ∈ sc.module.succsOf b)
include X H hphis hentry hruns hi hc

/-- An edge out of a block that goes nowhere else. -/
theorem crosses_jump
    (Y : sc.Composed p lists saves entry s₁ s₂ S d blocks i b t K C [] [.jump n] seq)
    (hlen : (sc.module.operandsOf t).length = 1) (htargets : sc.Targets d.edges b c n) :
    sc.Crosses p params blocks S.held b c ((if i = 0 then entry else []) ++ K ++ C) [] seq.code
      (d.pendingOf i) := by
  have hb := H.mem_blocks.1 (List.mem_of_getElem? hi)
  obtain ⟨k, hk, hnk⟩ := htargets
  have hk := H.idxOf?_eq_some.1 hk
  have hcf := H.mem_blocks.1 (List.mem_of_getElem? hk)
  have hbr : ¬sc.module.branches b = true := by simp [Y.branches, hlen]
  have hholder : sc.holder? d b c = some i := by
    rw [holder?, if_neg hbr, H.idxOf?_eq_some.2 hi]
  -- there are blocks on edges out of conditional branches only
  have hnone : d.edges.lookup (b, c) = none :=
    Option.eq_none_iff_forall_ne_some.2 fun x hx => hbr (X.edge hx).2.1
  rw [hnone, Option.getD_none] at hnk
  subst hnk
  obtain ⟨fresh, -, hseq⟩ := Y.placed.sequence
  obtain ⟨B, hB, hinsts⟩ := Y.insts
  rw [List.append_nil] at hinsts
  have hopens := Y.opens X H hentry hi
  rw [List.append_nil] at hopens
  have hroute : Route blocks sc.blocks.length i n ((if i = 0 then entry else []) ++ K ++ C)
      ([] ++ seq.code) n [.jump n] := .jump hB hinsts
  refine ⟨⟨i, n, n, _, hi, hk, hroute, hroute.leads, hopens⟩, .nil p _, ⟨_, seq, hseq, rfl⟩,
    fun q hq => ?_, fun st₀ => ?_⟩
  · obtain ⟨st, -, hsourced⟩ := Y.reaches hruns ⟨fun _ => 0, ⟨fun _ => 0, []⟩⟩
    obtain ⟨phi, hphi, o, ho, hdst, -, hsrc⟩ :=
      X.copy_ok H hphis hb hc hcf hholder hsourced hq
    exact ⟨phi, hphi, o, ho, hdst, hsrc⟩
  · obtain ⟨st, hdoes, hsourced⟩ := Y.reaches hruns st₀
    obtain ⟨st', hdoes', hcarries⟩ := X.carries H hphis hb hc hcf hholder hsourced Y.placed
    exact ⟨st, st', hdoes, hdoes', hcarries⟩

/-- An edge out of a conditional branch. -/
theorem crosses_fork {test : Inst} {n' x : Nat}
    (Y : sc.Composed p lists saves entry s₁ s₂ S d blocks i b t K C run [test, .jump n'] seq)
    (hrun : Runs p run) (hlen : (sc.module.operandsOf t).length = 3) (htest : test.Tests n)
    (hx : x = n ∨ x = n') (htargets : sc.Targets d.edges b c x) :
    ∃ fill moves copies, sc.Crosses p params blocks S.held b c
      ((if i = 0 then entry else []) ++ K ++ (C ++ run)) fill moves copies := by
  have hb := H.mem_blocks.1 (List.mem_of_getElem? hi)
  obtain ⟨k, hk, hxk⟩ := htargets
  have hk' := H.idxOf?_eq_some.1 hk
  have hcf := H.mem_blocks.1 (List.mem_of_getElem? hk')
  have hbr : sc.module.branches b = true := by simp [Y.branches, hlen]
  have hopens := Y.opens X H hentry hi
  -- the copies of the block itself would be too early
  obtain ⟨B, hB, hinsts⟩ := Y.insts
  rw [X.code_eq_nil H hphis hi Y.placed (.inl hbr), List.append_nil,
    List.append_assoc _ C] at hinsts
  have hfront (st₀ : State) :
      ∃ st, Does p ((if i = 0 then entry else []) ++ K ++ (C ++ run)) st₀ st := by
    obtain ⟨st, hdoes, -⟩ := Y.reaches hruns st₀
    obtain ⟨st', hdoes'⟩ := hrun st
    refine ⟨st', ?_⟩
    rw [← List.append_assoc]
    exact hdoes.append hdoes'
  cases hl : d.edges.lookup (b, c) with
  | none =>
    rw [hl, Option.getD_none] at hxk
    have hnone : sc.module.phisOf c = [] := by
      refine List.eq_nil_iff_forall_not_mem.2 fun phi hphi => ?_
      obtain ⟨o, m, q, -, hm, -⟩ := X.exists_holder H hphis hb hc hcf hphi
      rw [holder?, if_pos hbr, hl] at hm
      cases hm
    have hroute : Route blocks sc.blocks.length i k
        ((if i = 0 then entry else []) ++ K ++ (C ++ run)) ([] ++ []) k [test, .jump n'] :=
      .branch hB hinsts rfl htest (hxk ▸ hx)
    refine ⟨[], [], [], ⟨i, k, k, _, hi, hk', hroute, hroute.leads, hopens⟩, .nil p _,
      ⟨fun n => .virt n, ⟨[], 0⟩, rfl, rfl⟩, List.forall_mem_nil _, fun st₀ => ?_⟩
    obtain ⟨st, hdoes⟩ := hfront st₀
    exact ⟨st, st, hdoes, .nil, .of_phisOf_eq_nil hnone p _ b st⟩
  | some m =>
    rw [hl, Option.getD_some] at hxk
    subst hxk
    obtain ⟨hle, -, K', seq', k', B', hplaced, hk'', hB', hinsts'⟩ := X.edge hl
    cases hk.symm.trans hk''
    have hholder : sc.holder? d b c = some x := by rw [holder?, if_pos hbr, hl]
    obtain ⟨fresh, -, hseq⟩ := hplaced.sequence
    have honly (j : Nat) (C : Target.Block) (hC : blocks[j]? = some C) (inst : Inst)
        (hinst : inst ∈ C.insts) (hop : inst.op.isControl = true)
        (hsrc : Operand.block x ∈ inst.srcs) : j = i :=
      X.eq_of_target H hruns.straight hi hl hC hinst hop hsrc
    have hroute : Route blocks sc.blocks.length i k
        ((if i = 0 then entry else []) ++ K ++ (C ++ run)) (K' ++ seq'.code) x [test, .jump n'] :=
      .detour hB hinsts htest hx hle hB' hinsts' honly
    refine ⟨K', seq'.code, d.pendingOf x, ⟨i, x, k, _, hi, hk', hroute, hroute.leads, hopens⟩,
      fun st => ?_, ⟨_, seq', hseq, rfl⟩, fun q hq => ?_, fun st₀ => ?_⟩
    · obtain ⟨st', hdoes, hquiet, -⟩ := hplaced.delivers st
      exact ⟨st', hdoes, hquiet.unchanged X.values⟩
    · obtain ⟨st, -, -, hsourced⟩ := hplaced.delivers ⟨fun _ => 0, ⟨fun _ => 0, []⟩⟩
      obtain ⟨phi, hphi, o, ho, hdst, -, hsrc⟩ :=
        X.copy_ok H hphis hb hc hcf hholder hsourced hq
      exact ⟨phi, hphi, o, ho, hdst, hsrc⟩
    · obtain ⟨st, hdoes⟩ := hfront st₀
      obtain ⟨st₁, hdoes₁, hquiet, hsourced⟩ := hplaced.delivers st
      obtain ⟨st', hdoes', hcarries⟩ := X.carries H hphis hb hc hcf hholder hsourced hplaced
      exact ⟨st, st', hdoes, hdoes₁.append hdoes',
        hcarries.of_unchanged (hquiet.unchanged X.values)⟩

/-- Every edge out of a block carries out the phis at its end. -/
theorem crosses : ∃ front fill moves copies,
    sc.Crosses p params blocks S.held b c front fill moves copies := by
  obtain ⟨t, K, C, run, exit, seq, Y⟩ := X.composed H hruns.straight hi
  have hexit : c ∈ sc.module.exitsOf t := by
    rw [Y.succs, List.mem_eraseDups] at hc
    exact hc
  have hends := Y.ends
  cases hends with
  | ret _ hnone =>
    rw [hnone] at hexit
    cases hexit
  | jump hrun hlen hone htargets =>
    subst hrun
    rw [hone, List.mem_singleton] at hexit
    subst hexit
    exact ⟨_, _, _, _, X.crosses_jump H hphis hentry hruns hi hc Y hlen htargets⟩
  | fork hrun hlen htwo htest htargets htargets' =>
    rw [htwo, List.mem_pair] at hexit
    rcases hexit with rfl | rfl
    · exact ⟨_, X.crosses_fork H hphis hentry hruns hi hc Y hrun hlen htest (.inl rfl) htargets⟩
    · exact ⟨_, X.crosses_fork H hphis hentry hruns hi hc Y hrun hlen htest (.inr rfl) htargets'⟩

end Selected

end Scope

namespace Module

variable {m : Module} {f : FuncId} {F : Target.Func}

/-- The code that is selected for a function of a module that was built and accepted carries out, on
every edge, the phis of the block that the edge leads to, if the phis of the function list each
predecessor of their block once and nothing else. On the way from the code of one block to the code
of the next, be it direct or over a block on the edge, the machine does the copies that belong to the
edge and no others. -/
theorem selectFunc_crosses (hbuilt : m.Built) (hverify : m.verify = .ok none)
    (hphis : m.PhisMatchPreds f) (h : m.selectFunc riscv32 f = .ok F) (p : Platform) :
    ∃ frame S, Frame.compute m f riscv32.paramRegs.length riscv32.word = .ok frame ∧
      m.selection riscv32 f = .ok (F, S) ∧
      ∀ b ∈ m.blocksOf f, ∀ c ∈ m.succsOf b, ∃ front fill moves copies,
        Scope.Crosses ⟨m, riscv32, frame, m.blocksOf f⟩ p (m.paramsOf f) F.blocks S.held b c front
          fill moves copies := by
  obtain ⟨lists, hm⟩ := hbuilt.wellFormed hverify
  obtain ⟨S, hS⟩ := selection_of_selectFunc h
  obtain ⟨y, frame, loops, hy, ⟨hframe, -⟩, hblocks⟩ := selection_ok hS
  rw [← blocksOf_of_func hy] at hblocks
  have H : Scope.IsOf ⟨m, riscv32, frame, m.blocksOf f⟩ f lists := ⟨hm, rfl, rfl⟩
  obtain ⟨saves, entry, s₀, s₁, s₂, S', d, hentry, -, X, hheld⟩ := H.selectBlocks_ok p hblocks
  have hruns := H.prologue_runs (p := p) hy hentry
  refine ⟨frame, S, hframe, hS, fun b hb c hc => ?_⟩
  obtain ⟨i, hi⟩ := List.getElem?_of_mem hb
  rw [← hheld, paramsOf_of_func hy]
  exact X.crosses H hphis hentry hruns hi hc

/-- Calls that build a function with a loop. A constant, a parameter and an address come into the
loop, which exchanges the first two each time around on an edge of a conditional branch. -/
def ringActions : List Action := [
  .addFunction "f" .i32 [("n", .i32)],
  .addBlock ⟨0⟩ "entry", .addBlock ⟨0⟩ "loop", .addBlock ⟨0⟩ "exit",
  .addGlobal "g" .i32 none, .build ⟨0⟩ (.i32 7), .build ⟨0⟩ (.br ⟨1⟩),
  .build ⟨1⟩ (.phi .i32), .build ⟨1⟩ (.phi .i32), .build ⟨1⟩ (.phi (.ptr .i32)),
  .build ⟨1⟩ (.compare .slt ⟨7⟩ ⟨8⟩), .build ⟨1⟩ (.condBr ⟨10⟩ ⟨1⟩ ⟨2⟩),
  .build ⟨2⟩ (.ret (some ⟨7⟩)),
  .build ⟨1⟩ (.addIncoming ⟨7⟩ ⟨5⟩ ⟨0⟩), .build ⟨1⟩ (.addIncoming ⟨7⟩ ⟨8⟩ ⟨1⟩),
  .build ⟨1⟩ (.addIncoming ⟨8⟩ ⟨0⟩ ⟨0⟩), .build ⟨1⟩ (.addIncoming ⟨8⟩ ⟨7⟩ ⟨1⟩),
  .build ⟨1⟩ (.addIncoming ⟨9⟩ ⟨4⟩ ⟨0⟩), .build ⟨1⟩ (.addIncoming ⟨9⟩ ⟨9⟩ ⟨1⟩)]

/-- The module that `ringActions` build. -/
def ringModule : Module := (ringActions.foldlM Action.run {}).toOption.getD {}

/-- The copies into the loop stand in the first block, those around it in a block on the edge, and on
the way out there are none. -/
theorem selectFunc_crosses_ring :
    ringModule.Built ∧ ringModule.verify = .ok none ∧ ringModule.PhisMatchPreds ⟨0⟩ ∧ ∃ F,
      ringModule.selectFunc riscv32 ⟨0⟩ = .ok F ∧
      F.blocks.map (fun B => (B.name, B.insts.length)) =
        [("entry", 21), ("loop", 2), ("exit", 15), ("loop.loop", 4)] ∧
      ∃ frame S, Frame.compute ringModule ⟨0⟩ riscv32.paramRegs.length riscv32.word = .ok frame ∧
        ringModule.selection riscv32 ⟨0⟩ = .ok (F, S) ∧
        ∀ e ∈ [(⟨0⟩, ⟨1⟩), (⟨1⟩, ⟨1⟩), (⟨1⟩, ⟨2⟩)], ∃ front fill moves copies,
          Scope.Crosses ⟨ringModule, riscv32, frame, ringModule.blocksOf ⟨0⟩⟩ plainPlatform
            (ringModule.paramsOf ⟨0⟩) F.blocks S.held e.1 e.2 front fill moves copies := by
  have hbuilt : ringModule.Built := ⟨ringActions, rfl⟩
  have hverify : ringModule.verify = .ok none := by decide +kernel
  have hphis : ringModule.PhisMatchPreds ⟨0⟩ := by decide +kernel
  have hcode : (ringModule.selectFunc riscv32 ⟨0⟩).map (fun F =>
      F.blocks.map fun B => (B.name, B.insts.length)) =
        .ok [("entry", 21), ("loop", 2), ("exit", 15), ("loop.loop", 4)] := by
    decide +kernel
  have hedges : ∀ e ∈ [((⟨0⟩ : BlockId), (⟨1⟩ : BlockId)), (⟨1⟩, ⟨1⟩), (⟨1⟩, ⟨2⟩)],
      e.1 ∈ ringModule.blocksOf ⟨0⟩ ∧ e.2 ∈ ringModule.succsOf e.1 := by
    decide +kernel
  cases hF : ringModule.selectFunc riscv32 ⟨0⟩ with
  | error stop =>
    rw [hF] at hcode
    cases hcode
  | ok F =>
    rw [hF] at hcode
    obtain ⟨frame, S, hframe, hS, hcross⟩ :=
      selectFunc_crosses hbuilt hverify hphis hF plainPlatform
    exact ⟨hbuilt, hverify, hphis, F, rfl, Except.ok.inj hcode, frame, S, hframe, hS,
      fun e he => hcross e.1 (hedges e he).1 e.2 (hedges e he).2⟩

end Module

end SsaCodegen
