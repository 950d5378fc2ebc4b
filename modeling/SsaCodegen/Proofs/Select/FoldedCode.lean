import SsaCodegen.Compile
import SsaCodegen.Proofs.ConstProp.FoldedWord
import SsaCodegen.Proofs.Select.Preservation

/-!
# The code of folded functions

A module can be compiled with and without constant folding. If its functions are in SSA form and the
constants that are folded are narrow enough, the two versions of the code of a function do the same:
they visit the same blocks in the same order, do the same stores and calls on the way, and return
with the same result. With wider constants they need not, since folding computes with 64 bits what
the code computes with 32.

## Main definitions

* `Target.Visit.Agrees` — two visits, in two versions of a function, do the same
* `Target.DoSame` — two versions of a function do the same

## Main results

* `Module.compile_folded_same` — the code with and without folding
* `Module.compile_folded_wide` — the two may return different values if a constant is too wide
-/

namespace SsaCodegen

open Target SelectM Registers

namespace Target

/-- Two visits, in two versions of a function, are to the same block, leave the same world behind
and end in the same way, with the same result if a return has one. -/
structure Visit.Agrees (returns : Bool) (T T' : Target.Visit) : Prop where
  block : T'.block = T.block
  world : T'.state.world = T.state.world
  exit : (∃ n n', T.exit = .goto n ∧ T'.exit = .goto n') ∨
    T.exit = .ret ∧ T'.exit = .ret ∧ (returns = true →
      T'.state.get (.phys riscv32.result) = T.state.get (.phys riscv32.result))

/-- The visits to the first `count` blocks among the first `k` visits of a run from the first
block. -/
def visits (p : Platform) (code : List Target.Block) (count k : Nat) (st : State) :
    List Target.Visit :=
  (run p code k 0 st).filter fun T => T.block < count

/-- Two versions of a function with `count` blocks, apart from blocks on edges, do the same when they
are called in a state. However long they run, and until they return, their visits agree. -/
def DoSame (p : Platform) (count : Nat) (returns : Bool) (code code' : List Target.Block)
    (st : State) : Prop :=
  ∀ n, ∃ k k', List.Forall₂ (Visit.Agrees returns) (visits p code count k st)
      (visits p code' count k' st) ∧
    (n ≤ (visits p code count k st).length ∨ ∃ T ∈ visits p code count k st, T.exit = .ret)

end Target

/-! ## Fields -/

namespace Scope

variable {sc : Scope} {s s' : Registers} {b : BlockId} {v base index : ValueId} {code : Code}
  {saves : Saves} {edges : EdgeBlocks}

/-- The number of a field must be a constant. -/
theorem constOf_of_lowerGep (ho : sc.module.operandsOf v = [base, index])
    (h : sc.lowerGep v true s = .ok (code, s')) : ∃ n, sc.module.constOf index = some n := by
  obtain ⟨base', s₁, -, h⟩ := bind_ok.1 h
  obtain ⟨index', hindex, h⟩ := lift_bind_ok.1 h
  have hindex := Module.operandsOf_of_operand hindex
  rw [ho] at hindex
  cases hindex
  obtain ⟨ty, s₂, -, h⟩ := bind_ok.1 h
  obtain ⟨⟨r, baseCode⟩, s₃, -, h⟩ := bind_ok.1 h
  obtain ⟨dst, s₄, -, h⟩ := bind_ok.1 h
  rw [if_pos rfl] at h
  obtain ⟨rest, s₅, hfield, -⟩ := bind_ok.1 h
  obtain ⟨offset, s₆, hoffset, -⟩ := bind_ok.1 hfield
  unfold fieldOffset at hoffset
  cases hl : ty.className.bind sc.module.types.layout? with
  | none =>
    rw [hl] at hoffset
    exact absurd hoffset refuse_ne_ok
  | some layout =>
    rw [hl] at hoffset
    obtain ⟨kind, hkind, hoffset⟩ := lift_bind_ok.1 hoffset
    rw [Module.constOf, Module.kindOf_of_kind hkind, Option.bind_some]
    cases hn : kind.asConstInt with
    | none =>
      rw [hn] at hoffset
      exact absurd hoffset refuse_ne_ok
    | some n => exact ⟨n, rfl⟩

theorem lowerInst_of_lowerInsts {l : List ValueId} (hv : v ∈ l)
    (h : sc.lowerInsts saves edges b l s = .ok (code, s')) :
    ∃ code r r', sc.lowerInst saves edges b v r = .ok (code, r') := by
  induction l generalizing s code with
  | nil => cases hv
  | cons u rest ih =>
    obtain ⟨here, later, s₁, hhere, hlater, -⟩ := lowerInsts_cons h
    rcases List.mem_cons.1 hv with rfl | hv
    · exact ⟨here, s, s₁, hhere⟩
    · exact ih hv hlater

theorem lowerInsts_of_fillBlocks {d d' : Draft} {i : Nat} {bs : List BlockId} (hb : b ∈ bs)
    (h : sc.fillBlocks saves d i bs s = .ok (d', s')) :
    ∃ insts edges code r r', sc.module.insts b = .ok insts ∧
      sc.lowerInsts saves edges b insts r = .ok (code, r') := by
  induction bs generalizing d i s with
  | nil => cases hb
  | cons c rest ih =>
    obtain ⟨insts, hinsts, h⟩ := lift_bind_ok.1 h
    obtain ⟨code, s₂, hcode, h⟩ := bind_ok.1 h
    rcases List.mem_cons.1 hb with rfl | hb
    · exact ⟨insts, _, code, s, s₂, hinsts, hcode⟩
    · exact ih hb h

end Scope

namespace Module

variable {m m₁ m' : Module} {lists : BlockId → List ValueId} {f : FuncId} {y : Func}
  {prog : Target.Program} {t : Target.Spec}

/-- If there is code for a module, its fields are given by constants. -/
theorem WellFormed.fieldsNumbered (hm : m.WellFormed lists) (h : m.select t = .ok prog) :
    m.FieldsNumbered := by
  intro b v base index hv hk ho
  obtain ⟨hmem, g, hb⟩ := hm.mem_of_mem_instsOf hv
  obtain ⟨y, hy, hblock⟩ := hm.owned.mem.1 hb
  have hdef : y.isDeclaration = false := by
    rw [Func.isDeclaration, List.isEmpty_eq_false_iff]
    exact List.ne_nil_of_mem hblock
  obtain ⟨fn, -, hsel⟩ := select_functions h hy hdef
  obtain ⟨y', frame, loops, blocks, regs, hy', -, hblocks, -⟩ := selectFunc_parts hsel
  cases hy.symm.trans hy'
  obtain ⟨empty, saves, entry, s₀, d, s₁, d', s₂, -, -, -, hfill, -⟩ :=
    Scope.selectBlocks_steps hblocks
  obtain ⟨insts, edges, code, r, r', hinsts, hlower⟩ := Scope.lowerInsts_of_fillBlocks hblock hfill
  cases hinsts.symm.trans (hm.insts hb)
  obtain ⟨code, r, r', hinst⟩ := Scope.lowerInst_of_lowerInsts hmem hlower
  obtain ⟨kind, hkind, hinst⟩ := lift_bind_ok.1 hinst
  cases hkind.symm.trans (instKind_eq hk)
  exact Scope.constOf_of_lowerGep ho hinst

/-! ## Compiling -/

theorem checkIf_ok {wanted : Bool} {u : Unit} (h : m.checkIf wanted = .ok (.ok u, m')) :
    m' = m := by
  unfold checkIf at h
  split at h
  · obtain ⟨defect, -, h⟩ := SsaCodegen.bind_eq_ok.1 h
    cases defect with
    | some e => cases h
    | none =>
      cases h
      rfl
  · cases h
    rfl

theorem emit_ok {opts : CompileOptions} {out : CompileOutput}
    (h : m.emit opts t = .ok (.ok out)) : m.select t = .ok out.program := by
  unfold emit at h
  cases hsel : m.select t with
  | error e =>
    rw [hsel] at h
    dsimp only at h
    split at h
    all_goals
      obtain ⟨text, -, h⟩ := SsaCodegen.bind_eq_ok.1 h
      cases e <;> cases h
  | ok prog =>
    rw [hsel] at h
    dsimp only at h
    split at h
    all_goals
      obtain ⟨text, -, h⟩ := SsaCodegen.bind_eq_ok.1 h
      split at h
      all_goals
        obtain ⟨listing, -, h⟩ := SsaCodegen.bind_eq_ok.1 h
        cases h
        rfl

theorem optimizeIf_plain {opts : CompileOptions} {u : Unit} (hopts : opts.foldConstants = false)
    (h : m.optimizeIf opts = .ok (.ok u, m')) : m' = m := by
  rw [optimizeIf, if_neg (by rw [hopts]; nofun)] at h
  cases h
  rfl

theorem optimizeIf_folded {opts : CompileOptions} {u : Unit} (hopts : opts.foldConstants = true)
    (h : m.optimizeIf opts = .ok (.ok u, m')) : ∃ changed, m.optimize = .ok (.ok changed, m') := by
  rw [optimizeIf, if_pos hopts] at h
  obtain ⟨⟨r, m₁⟩, hoptimize, hcheck⟩ := SsaCodegen.bind_eq_ok.1 h
  cases r with
  | error e => cases hcheck
  | ok changed =>
    rw [checkIf_ok hcheck]
    exact ⟨changed, hoptimize⟩

/-- The code is that of the module that is left, and the passes have left it. -/
theorem compile_ok {opts : CompileOptions} {out : CompileOutput}
    (h : m.compile opts t = .ok (.ok out, m')) :
    m'.select t = .ok out.program ∧ ∃ u, m.optimizeIf opts = .ok (.ok u, m') := by
  obtain ⟨⟨r, m₁⟩, hcheck, hpasses⟩ := SsaCodegen.bind_eq_ok.1 h
  cases r with
  | error e => cases hpasses
  | ok u =>
    obtain rfl := checkIf_ok hcheck
    obtain ⟨⟨r, m₂⟩, hopt, hcode⟩ := SsaCodegen.bind_eq_ok.1 hpasses
    cases r with
    | error e => cases hcode
    | ok u =>
      obtain ⟨out', hemit, heq⟩ := SsaCodegen.bind_eq_ok.1 hcode
      cases heq
      exact ⟨emit_ok hemit, u, hopt⟩

/-! ## Two versions of a function -/

/-- Whether a function returns a value. -/
def returns (m : Module) (f : FuncId) : Bool := m.funcs[f.idx]?.any fun y => y.ret ≠ .void

/-- A platform that knows the functions which a function calls still does. -/
theorem Thinned.suits {sub : ValueId → ValueId} {p : Platform} (h : Thinned m lists sub m')
    (hsuits : m.Suits f p) : m'.Suits f p := by
  intro b v callee hb hv hk
  rw [h.blocksOf_eq] at hb
  rw [h.instsOf_eq, List.mem_filter] at hv
  obtain ⟨k, hk'⟩ := h.before.threads.inst (h.before.mem_of_mem_instsOf hv.1).1
  cases hk.symm.trans (h.kind hk')
  rw [hsuits hb hv.1 hk', h.operands (of_decide_eq_true hv.2), List.length_map]

theorem Thinned.called {sub : ValueId → ValueId} {a : Activation} {st : State}
    (h : Thinned m lists sub m') (hcalled : m.Called f a st) : m'.Called f a st where
  sp := hcalled.sp
  args {i v} hv := by
    rw [h.paramsOf_eq] at hv
    obtain ⟨j, hk⟩ : ∃ j, m.kindOf v = some (.param f j) := by
      cases hy : m.funcs[f.idx]? with
      | none =>
        rw [paramsOf, hy] at hv
        cases hv
      | some y =>
        rw [paramsOf, hy] at hv
        exact ⟨i, h.before.owned.param hy hv⟩
    have hbytes := h.bytesOf_eq (lt_of_kindOf hk)
    rw [h.sub_eq (by simp [hk])] at hbytes
    rw [Activation.Passed, hbytes]
    exact hcalled.args hv

end Module

/-- Visits that go with visits that show the same agree. -/
theorem Tracks.agrees {numbered : List BlockId} {V V' : Visit Word World} {T T' : Target.Visit}
    {returns : Bool} (hnodup : numbered.Nodup) (h : Tracks numbered V T)
    (h' : Tracks numbered V' T') (heq : V'.outline = V.outline)
    (hreturns : ∀ r, V.exit = .ret r → returns = true → r.isSome = true) :
    T.Agrees returns T' := by
  have hblock : V'.block = V.block := congrArg (fun o => o.1) heq
  have hexit : V'.exit = V.exit := congrArg (fun o => o.2.1) heq
  have hworld : V'.world = V.world := congrArg (fun o => o.2.2) heq
  refine ⟨?_, by rw [h'.world, h.world, hworld], ?_⟩
  · have hlt := (List.getElem?_eq_some_iff.1 h'.block).1
    exact (List.getElem?_inj hlt hnodup).1 (by rw [h'.block, h.block, hblock])
  · rcases h.exit with ⟨c, n, hV, hT⟩ | ⟨r, hV, hT, hresult⟩
    · rcases h'.exit with ⟨c', n', hV', hT'⟩ | ⟨r', hV', hT', hresult'⟩
      · exact .inl ⟨n, n', hT, hT'⟩
      · cases hV'.symm.trans (hexit.trans hV)
    · rcases h'.exit with ⟨c', n', hV', hT'⟩ | ⟨r', hV', hT', hresult'⟩
      · cases hV'.symm.trans (hexit.trans hV)
      · cases hV'.symm.trans (hexit.trans hV)
        refine .inr ⟨hT, hT', fun hret => ?_⟩
        obtain ⟨w, rfl⟩ := Option.isSome_iff_exists.1 (hreturns _ hV hret)
        rw [hresult w rfl, hresult' w rfl]

namespace Tracks

variable {numbered : List BlockId} {l l' : List (Visit Word World)} {lT lT' : List Target.Visit}

theorem agrees_all {returns : Bool} (hnodup : numbered.Nodup)
    (h : List.Forall₂ (Tracks numbered) l lT) (h' : List.Forall₂ (Tracks numbered) l' lT')
    (heq : l'.map Visit.outline = l.map Visit.outline)
    (hreturns : ∀ V ∈ l, ∀ r, V.exit = .ret r → returns = true → r.isSome = true) :
    List.Forall₂ (Visit.Agrees returns) lT lT' := by
  induction h generalizing l' lT' with
  | nil =>
    rw [List.map_nil, List.map_eq_nil_iff] at heq
    rw [heq, List.forall₂_nil_left_iff] at h'
    rw [h']
    exact .nil
  | @cons V T rest restT hV hrest ih =>
    obtain ⟨V', rest', rfl, hV', hrest'⟩ := List.map_eq_cons_iff.1 heq
    obtain ⟨T', restT', hT', hrestT', rfl⟩ := List.forall₂_cons_left_iff.1 h'
    obtain ⟨hret, hrets⟩ := List.forall_mem_cons.1 hreturns
    exact .cons (hV.agrees hnodup hT' hV' hret) (ih hrestT' hrest' hrets)

/-- A run that the machine follows has a meaning. -/
theorem exit_ne_stuck (h : List.Forall₂ (Tracks numbered) l lT) : ∀ V ∈ l, V.exit ≠ .stuck := by
  intro V hV hstuck
  obtain ⟨T, -, hT⟩ := forall₂_exists_of_mem h hV
  rcases hT.exit with ⟨c, n, hgoto, -⟩ | ⟨r, hret, -⟩
  · cases hstuck.symm.trans hgoto
  · cases hstuck.symm.trans hret

/-- A run that ends is followed up to a return. -/
theorem exists_ret (h : List.Forall₂ (Tracks numbered) l lT)
    (hend : ∃ V ∈ l, ∀ c, V.exit ≠ .goto c) : ∃ T ∈ lT, T.exit = .ret := by
  obtain ⟨V, hV, hend⟩ := hend
  obtain ⟨T, hmem, hT⟩ := forall₂_exists_of_mem h hV
  rcases hT.exit with ⟨c, n, hgoto, -⟩ | ⟨r, -, hret, -⟩
  · exact absurd hgoto (hend c)
  · exact ⟨T, hmem, hret⟩

end Tracks

namespace Module

variable {m m' : Module} {lists : BlockId → List ValueId} {f : FuncId} {y : Func}
  {sub : ValueId → ValueId}

/-- The codes of a function of a module and of a thinner module with the same runs do the same. -/
theorem Thinned.doSame {fn fn' : Target.Func} (h : Thinned m lists sub m')
    (hsame : SameOutlines m m') (hy : m.funcs[f.idx]? = some y) (hdef : y.isDeclaration = false)
    (hsel : m.selectFunc riscv32 f = .ok fn) (hsel' : m'.selectFunc riscv32 f = .ok fn')
    (hssa : m.SsaForm f) :
    fn'.frameSize = fn.frameSize ∧ ∀ (p : Platform) (st : State), m.Suits f p →
      DoSame p (m.blocksOf f).length (m.returns f) fn.blocks fn'.blocks st := by
  obtain ⟨frame, hframe, hsize, htracks⟩ := h.before.selectFunc_tracks hy hdef hsel hssa
  obtain ⟨frame', hframe', hsize', htracks'⟩ := h.after.selectFunc_tracks
    (by rw [h.funcs]; exact hy) hdef hsel' (h.ssaForm hssa)
  cases hframe'.symm.trans (h.compute_eq hframe)
  refine ⟨hsize'.trans hsize.symm, fun p st hsuits n => ?_⟩
  have hcalled := called_callOf m f frame st
  obtain ⟨k, hk⟩ := htracks hsuits rfl hcalled n
  obtain ⟨k', hk'⟩ := htracks' (h.suits hsuits) rfl (h.called hcalled) n
  rw [h.blocksOf_eq] at hk'
  have hnodup := h.before.owned.nodup_blocksOf f
  refine ⟨k, k', Tracks.agrees_all hnodup hk hk' (hsame f p _ st.world n (Tracks.exit_ne_stuck hk))
    fun V hV r hr hret => ?_, ?_⟩
  · obtain ⟨pred, b, env, world, hb, rfl⟩ := h.before.exists_visit_of_mem_runFunc hV
    refine h.before.isSome_of_visit_ret _ hb _ _ _ hy ?_ hr
    rw [returns, hy] at hret
    simpa using hret
  · have hlen : (visits p fn.blocks (m.blocksOf f).length k st).length =
        ((Dialect.word m p (m.callOf f frame st)).runFunc m f st.world n).length :=
      hk.length_eq.symm
    obtain ⟨b, hb⟩ : ∃ b, y.entry = some b := by
      rw [Func.isDeclaration, List.isEmpty_eq_false_iff] at hdef
      exact ⟨_, List.head?_eq_some_head hdef⟩
    rw [hlen]
    rw [Dialect.runFunc, hy, Option.bind_some, hb] at hk ⊢
    exact (Dialect.length_run ..).imp_right (Tracks.exists_ret hk)

/-- A module that was built and accepted, with all functions in SSA form and with constants that are
narrow enough, is compiled with and without constant folding. The two versions of a function with a
body take the same frame and do the same, whatever the arguments and the memory. -/
theorem compile_folded_same {m₀ : Module} {opts opts' : CompileOptions} {out out' : CompileOutput}
    (hbuilt : m.Built) (hverify : m.verify = .ok none) (hssa : ∀ g ∈ m.bodies, m.SsaForm g)
    (hnarrow : m.foldsNarrowly m.bodies = true) (hplain : opts.foldConstants = false)
    (hfold : opts'.foldConstants = true)
    (hcompile : m.compile opts riscv32 = .ok (.ok out, m₀))
    (hcompile' : m.compile opts' riscv32 = .ok (.ok out', m')) (hf : f ∈ m.bodies) :
    ∃ fn fn', out.program.functions[f.idx]? = some fn ∧
      out'.program.functions[f.idx]? = some fn' ∧ fn'.frameSize = fn.frameSize ∧
      ∀ (p : Platform) (st : State), m.Suits f p →
        DoSame p (m.blocksOf f).length (m.returns f) fn.blocks fn'.blocks st := by
  obtain ⟨lists, hm⟩ := hbuilt.wellFormed hverify
  obtain ⟨y, hy, hdef⟩ := mem_bodies.1 hf
  -- the module as it is
  obtain ⟨hselect, u, hopt⟩ := compile_ok hcompile
  obtain rfl := optimizeIf_plain hplain hopt
  obtain ⟨fn, hfn, hsel⟩ := select_functions hselect hy hdef
  -- and what the passes make of it
  obtain ⟨hselect', u', hopt'⟩ := compile_ok hcompile'
  obtain ⟨changed, hoptimize⟩ := optimizeIf_folded hfold hopt'
  obtain ⟨⟨sub, hthin⟩, hsame⟩ :=
    optimize_outlines hm (hm.fieldsNumbered hselect) hssa hnarrow hoptimize
  obtain ⟨fn', hfn', hsel'⟩ := select_functions hselect' (by rw [hthin.funcs]; exact hy) hdef
  obtain ⟨hsize, hdo⟩ := hthin.doSame hsame hy hdef hsel hsel' (hssa f hf)
  exact ⟨fn, fn', hfn, hfn', hsize, hdo⟩

/-- Calls that build a function which stores a quotient of constants and calls another function with
it, if a comparison of constants is true, and adds the quotient, or else its argument, to its
argument. -/
def guardActions : List Action := [
  .addFunction "ext" .i32 [("x", .i32)], .addFunction "f" .i32 [("n", .i32)],
  .addBlock ⟨1⟩ "entry", .addBlock ⟨1⟩ "then", .addBlock ⟨1⟩ "else", .addBlock ⟨1⟩ "exit",
  .addGlobal "g" .i32 none,
  .build ⟨0⟩ (.i32 2), .build ⟨0⟩ (.i32 (-7)),
  .build ⟨0⟩ (.compare .slt ⟨8⟩ ⟨7⟩), .build ⟨0⟩ (.condBr ⟨9⟩ ⟨1⟩ ⟨2⟩),
  .build ⟨1⟩ (.binary .div ⟨8⟩ ⟨7⟩), .build ⟨1⟩ (.store ⟨11⟩ ⟨6⟩), .build ⟨1⟩ (.call ⟨0⟩ [⟨11⟩]),
  .build ⟨1⟩ (.br ⟨3⟩), .build ⟨2⟩ (.br ⟨3⟩),
  .build ⟨3⟩ (.phi .i32), .build ⟨3⟩ (.binary .add ⟨16⟩ ⟨1⟩), .build ⟨3⟩ (.ret (some ⟨17⟩)),
  .build ⟨3⟩ (.addIncoming ⟨16⟩ ⟨11⟩ ⟨1⟩), .build ⟨3⟩ (.addIncoming ⟨16⟩ ⟨1⟩ ⟨2⟩)]

/-- The module that `guardActions` build. -/
def guardModule : Module := (guardActions.foldlM Action.run {}).toOption.getD {}

theorem guardModule_ssaForm : guardModule.SsaForm ⟨1⟩ := by
  have havail : guardModule.Availability ⟨1⟩ fun b =>
      if b = ⟨0⟩ then [] else if b = ⟨3⟩ then [⟨9⟩, ⟨16⟩] else [⟨9⟩] := by
    constructor <;> decide +kernel
  exact havail.ssaForm

/-- The output for the 32-bit machine, if there is one. -/
def compiled? (m : Module) (opts : CompileOptions) : Option CompileOutput :=
  match m.compile opts riscv32 with
  | .ok (.ok out, _) => some out
  | _ => none

theorem exists_of_compiled? {opts : CompileOptions} {out : CompileOutput}
    (h : m.compiled? opts = some out) : ∃ m', m.compile opts riscv32 = .ok (.ok out, m') := by
  unfold compiled? at h
  split at h
  · rename_i out' m' heq
    cases h
    exact ⟨m', heq⟩
  · cases h

/-- The function is folded, and on a platform where functions take one argument the two versions
do the same. -/
theorem compile_folded_same_guard :
    ∃ out out' m₀ m' fn fn',
      guardModule.compile { foldConstants := false } riscv32 = .ok (.ok out, m₀) ∧
      guardModule.compile {} riscv32 = .ok (.ok out', m') ∧
      out.program.functions[1]? = some fn ∧ out'.program.functions[1]? = some fn' ∧
      ∀ st, DoSame { plainPlatform with arity := fun _ => 1 } 4 true fn.blocks fn'.blocks st := by
  have hok : (guardModule.compiled? { foldConstants := false }).isSome = true := by decide +kernel
  have hok' : (guardModule.compiled? {}).isSome = true := by decide +kernel
  obtain ⟨out, hout⟩ := Option.isSome_iff_exists.1 hok
  obtain ⟨out', hout'⟩ := Option.isSome_iff_exists.1 hok'
  obtain ⟨m₀, hcompile⟩ := exists_of_compiled? hout
  obtain ⟨m', hcompile'⟩ := exists_of_compiled? hout'
  have hbodies : guardModule.bodies = [⟨1⟩] := by decide +kernel
  obtain ⟨fn, fn', hfn, hfn', -, hdo⟩ := compile_folded_same (m := guardModule) (f := ⟨1⟩)
    ⟨guardActions, rfl⟩ (by decide +kernel)
    (fun g hg => by rw [hbodies, List.mem_singleton] at hg; exact hg ▸ guardModule_ssaForm)
    (by decide +kernel) rfl rfl hcompile hcompile' (by rw [hbodies]; exact List.mem_singleton_self _)
  refine ⟨out, out', m₀, m', fn, fn', hcompile, hcompile', hfn, hfn', fun st => ?_⟩
  have hcalls : ∀ b ∈ guardModule.blocksOf ⟨1⟩, ∀ v ∈ guardModule.instsOf b,
      guardModule.isCall v = true → 1 = (guardModule.operandsOf v).length := by decide +kernel
  refine hdo _ st fun {b v callee} hb hv hk => hcalls b hb v hv ?_
  rw [isCall, hk]

/-- Calls that build a function which returns half of the sum of one and the greatest number of 32
bits. -/
def wideActions : List Action := [
  .addFunction "f" .i32 [], .addBlock ⟨0⟩ "entry",
  .build ⟨0⟩ (.i32 2147483647), .build ⟨0⟩ (.i32 1), .build ⟨0⟩ (.i32 2),
  .build ⟨0⟩ (.binary .add ⟨1⟩ ⟨2⟩), .build ⟨0⟩ (.binary .div ⟨4⟩ ⟨3⟩),
  .build ⟨0⟩ (.ret (some ⟨5⟩))]

/-- The module that `wideActions` build. -/
def wideModule : Module := (wideActions.foldlM Action.run {}).toOption.getD {}

theorem wideModule_ssaForm : wideModule.SsaForm ⟨0⟩ := by
  have havail : wideModule.Availability ⟨0⟩ fun _ => [] := by
    constructor <;> decide +kernel
  exact havail.ssaForm

/-- How the first block of the first function of a program is left, and what is then in the register
for results, if all registers hold zero before. -/
def outcome (out : CompileOutput) : Option (List (Target.Exit × Word)) :=
  out.program.functions[0]?.map fun fn =>
    (run plainPlatform fn.blocks 1 0 ⟨fun _ => 0, ⟨fun _ => 0, []⟩⟩).map fun T =>
      (T.exit, T.state.get (.phys riscv32.result))

/-- The sum wraps around in 32 bits but not in 64, so that the function returns another value when
it is folded. -/
theorem compile_folded_wide :
    wideModule.Built ∧ wideModule.verify = .ok none ∧
      (∀ g ∈ wideModule.bodies, wideModule.SsaForm g) ∧
      ∃ out out' m₀ m',
        wideModule.compile { foldConstants := false } riscv32 = .ok (.ok out, m₀) ∧
        wideModule.compile {} riscv32 = .ok (.ok out', m') ∧
        outcome out = some [(.ret, -0x40000000)] ∧ outcome out' = some [(.ret, 0x40000000)] := by
  have hbodies : wideModule.bodies = [⟨0⟩] := by decide +kernel
  refine ⟨⟨wideActions, rfl⟩, by decide +kernel, fun g hg => ?_, ?_⟩
  · rw [hbodies, List.mem_singleton] at hg
    exact hg ▸ wideModule_ssaForm
  have hplain : (wideModule.compiled? { foldConstants := false }).bind outcome =
      some [(.ret, -0x40000000)] := by decide +kernel
  have hfolded : (wideModule.compiled? {}).bind outcome = some [(.ret, 0x40000000)] := by
    decide +kernel
  obtain ⟨out, hout, hreturn⟩ := Option.bind_eq_some_iff.1 hplain
  obtain ⟨out', hout', hreturn'⟩ := Option.bind_eq_some_iff.1 hfolded
  obtain ⟨m₀, hcompile⟩ := exists_of_compiled? hout
  obtain ⟨m', hcompile'⟩ := exists_of_compiled? hout'
  exact ⟨out, out', m₀, m', hcompile, hcompile', hreturn, hreturn'⟩

end Module

end SsaCodegen
