import SsaCodegen.Proofs.Select.Simulation

/-!
# Selection preserves meaning

The code that is selected for a function, run on the 32-bit machine, does what the function does: it
visits the same blocks in the same order, does the same stores and calls, and returns the same value.

## Main results

* `Module.selectFunc_tracks` — the code of one function
* `Module.select_preserves` — the code of any function of a module
-/

namespace SsaCodegen

open Target SelectM Registers

theorem Stop.lift_ok {x : Except Fault α} {a : α} :
    (liftM x : Except Stop α) = .ok a ↔ x = .ok a := by
  cases x with
  | error f =>
    show (Except.error (Stop.fault f) : Except Stop _) = .ok a ↔ _
    simp
  | ok b =>
    show (Except.ok b : Except Stop _) = .ok a ↔ _
    simp

theorem Stop.bind_ok {x : Except Stop α} {k : α → Except Stop β} {b : β} :
    (x >>= k) = .ok b ↔ ∃ a, x = .ok a ∧ k a = .ok b := by
  cases x with
  | error e => simp [bind, Except.bind]
  | ok a => simp [bind, Except.bind]

namespace Module

variable {m : Module} {lists : BlockId → List ValueId} {f : FuncId} {y : Func} {p : Platform}
  {a : Activation} {st : State}

/-- What a call of a function finds: the stack pointer right above the room for the frame, and each
argument where the function expects it. -/
structure Called (m : Module) (f : FuncId) (a : Activation) (st : State) : Prop where
  sp : st.get State.sp = a.base + .ofNat 32 a.frame.size
  args : ∀ {i : Nat} {v : ValueId}, (m.paramsOf f)[i]? = some v → a.Passed m st i v

/-- The call that a machine state stands for, with the arguments that it holds. -/
def callOf (m : Module) (f : FuncId) (frame : Frame) (st : State) : Activation where
  frame
  base := st.get State.sp - .ofNat 32 frame.size
  args i :=
    match riscv32.paramRegs[i]? with
    | some r => st.get (.phys r)
    | none => st.world.mem.load
        (st.get State.sp + .ofNat 32 ((i - riscv32.paramRegs.length) * riscv32.word))
        (((m.paramsOf f)[i]?.map m.bytesOf).getD 0)

theorem called_callOf (m : Module) (f : FuncId) (frame : Frame) (st : State) :
    m.Called f (m.callOf f frame st) st where
  sp := (BitVec.sub_add_cancel _ _).symm
  args {i v} hv := by
    simp only [Activation.Passed, callOf, BitVec.sub_add_cancel, hv, Option.map_some,
      Option.getD_some]
    cases riscv32.paramRegs[i]? with
    | none => rfl
    | some r => rfl

/-- The parts of the code of a function. -/
theorem selectFunc_parts {t : Target.Spec} {fn : Target.Func} (h : m.selectFunc t f = .ok fn) :
    ∃ y frame loops blocks regs, m.funcs[f.idx]? = some y ∧
      Frame.compute m f t.paramRegs.length t.word = .ok frame ∧
      Scope.selectBlocks ⟨m, t, frame, y.blocks⟩ y loops {} = .ok (blocks, regs) ∧
      fn = { name := y.name, isExternal := false, frameSize := frame.size,
             vregNames := regs.names, blocks } := by
  obtain ⟨y, hlift, h⟩ := Stop.bind_ok.1 h
  have hy := lookupOr_eq_ok.1 (Stop.lift_ok.1 hlift)
  obtain ⟨frame, hlift, h⟩ := Stop.bind_ok.1 h
  have hframe := Stop.lift_ok.1 hlift
  obtain ⟨loops, -, h⟩ := Stop.bind_ok.1 h
  obtain ⟨⟨blocks, regs⟩, hblocks, h⟩ := Stop.bind_ok.1 h
  exact ⟨y, frame, loops, blocks, regs, hy, hframe, hblocks, (Except.ok.inj h).symm⟩

/-- The code of a function does what the function does. -/
theorem WellFormed.selectFunc_tracks (hm : m.WellFormed lists) {fn : Target.Func}
    (hy : m.funcs[f.idx]? = some y) (hdef : y.isDeclaration = false)
    (h : m.selectFunc riscv32 f = .ok fn) (hssa : m.SsaForm f) :
    ∃ frame, Frame.compute m f riscv32.paramRegs.length riscv32.word = .ok frame ∧
      fn.frameSize = frame.size ∧ ∀ {p a st}, m.Suits f p → a.frame = frame → m.Called f a st →
        ∀ n, ∃ k, List.Forall₂ (Tracks (m.blocksOf f))
          ((Dialect.word m p a).runFunc m f st.world n)
          ((run p fn.blocks k 0 st).filter fun T => T.block < (m.blocksOf f).length) := by
  obtain ⟨y', frame, loops, blocks, regs, hy', hframe, hblocks, rfl⟩ := selectFunc_parts h
  cases hy.symm.trans hy'
  have hnumbered : y.blocks = m.blocksOf f := (blocksOf_of_func hy).symm
  have hparams : m.paramsOf f = y.params := paramsOf_of_func hy
  refine ⟨frame, hframe, rfl, fun {p a st} hsuits ha hcalled n => ?_⟩
  have H : Scope.IsFor ⟨m, riscv32, frame, y.blocks⟩ f lists p a :=
    ⟨⟨hm, rfl, hnumbered⟩, ha.symm, hsuits⟩
  obtain ⟨saves, entry, s₀, s₁, s₂, S, d, hentry, hg, X, -⟩ := H.selectBlocks_ok p hblocks
  have hnodup := hm.owned.params_nodup hy
  obtain ⟨-, hprologue⟩ := Scope.prologue_ok (p := p) rfl .empty ha.symm hnodup hentry
  obtain ⟨st', hdoes, hworld, hsp, hargs⟩ :=
    hprologue ((hg.trans X.sources).trans X.values) hcalled.sp fun {i v} hv =>
      hcalled.args (hparams ▸ hv)
  obtain ⟨b, rest, hb⟩ : ∃ b rest, y.blocks = b :: rest := by
    rw [Func.isDeclaration] at hdef
    exact List.exists_cons_of_ne_nil (by simpa using hdef)
  -- nothing has been evaluated yet, and the parameters are in their registers
  have hstart : Scope.Matches ⟨m, riscv32, frame, y.blocks⟩ f p a S ⟨b, m.bodyOf b⟩ []
      (fun _ => none) st' := by
    refine ⟨⟨b, by rw [← hnumbered, hb]; rfl, .refl⟩, nofun, hsp, fun {v g i r} hv hk hr => ?_,
      nofun, nofun⟩
    have hv : v ∈ m.paramsOf f := hv
    rw [hparams] at hv
    obtain ⟨j, hj⟩ := List.getElem?_of_mem hv
    cases hk.symm.trans (hm.owned.param hy hj)
    exact hargs hj hr
  have harrive : (Dialect.word m p a).arrive m (fun _ => none) none (m.phisOf b) = some [] := rfl
  have hrun := X.run_ok H hssa (i := 0) (by rw [hb]; rfl) harrive hstart hdoes n
  rw [hworld, hnumbered] at hrun
  have hfunc : (Dialect.word m p a).runFunc m f st.world n =
      (Dialect.word m p a).run m n none b (fun _ => none) st.world := by
    rw [Dialect.runFunc, hy, Option.bind_some, Func.entry, hb]
    rfl
  rw [hfunc]
  exact hrun

/-- The functions of a program stand for those of the module, in the same order. One without a body
is external, and any other has its code. -/
theorem select_each {prog : Target.Program} {t : Target.Spec} (h : m.select t = .ok prog) :
    List.Forall₂ (fun f fn => ∃ y, m.funcs[f.idx]? = some y ∧
      (y.isDeclaration = true ∧ fn = { name := y.name, isExternal := true } ∨
        y.isDeclaration = false ∧ m.selectFunc t f = .ok fn)) m.funcIds prog.functions := by
  obtain ⟨globals, -, h⟩ := Stop.bind_ok.1 h
  obtain ⟨functions, hfunctions, h⟩ := Stop.bind_ok.1 h
  cases h
  refine (mapM_eq_ok.1 hfunctions).imp fun f fn hsel => ?_
  obtain ⟨y, hlift, hsel⟩ := Stop.bind_ok.1 hsel
  refine ⟨y, lookupOr_eq_ok.1 (Stop.lift_ok.1 hlift), ?_⟩
  split at hsel
  · exact .inl ⟨by assumption, (Except.ok.inj hsel).symm⟩
  · exact .inr ⟨Bool.eq_false_iff.2 (by assumption), hsel⟩

/-- The code of a module has the code of each of its functions with a body in its place. -/
theorem select_functions {prog : Target.Program} {t : Target.Spec} (h : m.select t = .ok prog)
    (hy : m.funcs[f.idx]? = some y) (hdef : y.isDeclaration = false) :
    ∃ fn, prog.functions[f.idx]? = some fn ∧ m.selectFunc t f = .ok fn := by
  have hf : m.funcIds[f.idx]? = some f := by
    simp [funcIds, (Array.getElem?_eq_some_iff.1 hy).1]
  obtain ⟨fn, hfn, y', hy', hcases⟩ := forall₂_getElem? (select_each h) hf
  cases hy.symm.trans hy'
  rcases hcases with ⟨hdecl, -⟩ | ⟨-, hsel⟩
  · cases hdef.symm.trans hdecl
  · exact ⟨fn, hfn, hsel⟩

/-- Whether a value is a call. -/
def isCall (m : Module) (v : ValueId) : Bool :=
  match m.kindOf v with
  | some (.inst (.call _)) => true
  | _ => false

/-- A function calls no other. -/
def CallFree (m : Module) (f : FuncId) : Prop :=
  ∀ b ∈ m.blocksOf f, ∀ v ∈ m.instsOf b, m.isCall v = false

theorem CallFree.suits (h : m.CallFree f) (p : Platform) : m.Suits f p := by
  intro b v callee hb hv hk
  have hnone := h b hb v hv
  rw [isCall, hk] at hnone
  cases hnone

/-- The code selected for a module that was built and accepted holds, for each function in SSA form
that has a body and makes no calls, code that does what the function does. Whatever the arguments and
the memory, and however far the function is run, the machine visits the same blocks in the same
order, apart from blocks on edges, does the same stores, and returns with the same result. -/
theorem select_preserves {prog : Target.Program} (hbuilt : m.Built) (hverify : m.verify = .ok none)
    (hdef : m.blocksOf f ≠ []) (hcalls : m.CallFree f) (hssa : m.SsaForm f)
    (hselect : m.select riscv32 = .ok prog) :
    ∃ fn frame, prog.functions[f.idx]? = some fn ∧
      Frame.compute m f riscv32.paramRegs.length riscv32.word = .ok frame ∧
      fn.frameSize = frame.size ∧
      ∀ (p : Platform) (a : Activation) (st : State), a.frame = frame → m.Called f a st →
        ∀ n, ∃ k, List.Forall₂ (Tracks (m.blocksOf f))
          ((Dialect.word m p a).runFunc m f st.world n)
          ((run p fn.blocks k 0 st).filter fun T => T.block < (m.blocksOf f).length) := by
  obtain ⟨lists, hm⟩ := hbuilt.wellFormed hverify
  obtain ⟨y, hy, hblocks⟩ : ∃ y, m.funcs[f.idx]? = some y ∧ y.blocks ≠ [] := by
    rw [blocksOf] at hdef
    cases hy : m.funcs[f.idx]? with
    | none =>
      rw [hy] at hdef
      exact absurd rfl hdef
    | some y =>
      rw [hy] at hdef
      exact ⟨y, rfl, hdef⟩
  have hdecl : y.isDeclaration = false := by
    rw [Func.isDeclaration, List.isEmpty_eq_false_iff]
    exact hblocks
  obtain ⟨fn, hfn, hsel⟩ := select_functions hselect hy hdecl
  obtain ⟨frame, hframe, hsize, htracks⟩ := hm.selectFunc_tracks hy hdecl hsel hssa
  exact ⟨fn, frame, hfn, hframe, hsize, fun p a st ha hcalled n =>
    htracks (hcalls.suits p) ha hcalled n⟩

/-- Calls that build a function of ten parameters with a loop. The loop exchanges two phis each time
around and ends on a comparison with the sum of the two parameters that have no register. -/
def swapActions : List Action := [
  .addFunction "f" .i32 ((List.range 10).map fun _ => ("x", .i32)),
  .addBlock ⟨0⟩ "entry", .addBlock ⟨0⟩ "loop", .addBlock ⟨0⟩ "body", .addBlock ⟨0⟩ "exit",
  .addGlobal "g" .i32 none,
  .build ⟨0⟩ (.binary .add ⟨8⟩ ⟨9⟩), .build ⟨0⟩ (.store ⟨15⟩ ⟨14⟩), .build ⟨0⟩ (.br ⟨1⟩),
  .build ⟨1⟩ (.phi .i32), .build ⟨1⟩ (.phi .i32), .build ⟨1⟩ (.phi .i32),
  .build ⟨1⟩ (.compare .slt ⟨20⟩ ⟨15⟩), .build ⟨1⟩ (.condBr ⟨21⟩ ⟨2⟩ ⟨3⟩),
  .build ⟨2⟩ (.i32 1), .build ⟨2⟩ (.binary .add ⟨20⟩ ⟨23⟩), .build ⟨2⟩ (.br ⟨1⟩),
  .build ⟨3⟩ (.ret (some ⟨18⟩)),
  .build ⟨1⟩ (.addIncoming ⟨18⟩ ⟨0⟩ ⟨0⟩), .build ⟨1⟩ (.addIncoming ⟨18⟩ ⟨19⟩ ⟨2⟩),
  .build ⟨1⟩ (.addIncoming ⟨19⟩ ⟨1⟩ ⟨0⟩), .build ⟨1⟩ (.addIncoming ⟨19⟩ ⟨18⟩ ⟨2⟩),
  .build ⟨1⟩ (.addIncoming ⟨20⟩ ⟨2⟩ ⟨0⟩), .build ⟨1⟩ (.addIncoming ⟨20⟩ ⟨24⟩ ⟨2⟩)]

/-- The module that `swapActions` build. -/
def swapModule : Module := (swapActions.foldlM Action.run {}).toOption.getD {}

theorem swapModule_ssaForm : swapModule.SsaForm ⟨0⟩ := by
  have havail : swapModule.Availability ⟨0⟩ fun b =>
      if b = ⟨0⟩ then [] else [⟨15⟩, ⟨18⟩, ⟨19⟩, ⟨20⟩] := by
    constructor <;> decide +kernel
  exact havail.ssaForm

/-- A platform without functions, with all global variables at one address. -/
def plainPlatform : Platform where
  address _ := 0x10000
  hi _ := 0x10
  lo _ := 0
  hi_add_lo _ := by decide
  arity _ := 0
  callee _ _ _ mem := ⟨fun _ => 0, mem⟩

/-- A state with the numbers of registers in them, but a counter in the third argument register. -/
def swapState : State :=
  ⟨fun r => match r with
    | .phys r => if r = ⟨12⟩ then 0x02020201 else .ofNat 32 r.num
    | .virt _ => 0, ⟨fun _ => 1, []⟩⟩

/-- Around the loop once and back, the machine follows. The first two arguments are exchanged. -/
theorem select_preserves_swap :
    ∃ prog fn frame k, swapModule.select riscv32 = .ok prog ∧ prog.functions[0]? = some fn ∧
      (((Dialect.word swapModule plainPlatform (swapModule.callOf ⟨0⟩ frame swapState)).runFunc
        swapModule ⟨0⟩ swapState.world 5).map fun V => (V.block.idx, V.exit)) =
          [(0, .goto ⟨1⟩), (1, .goto ⟨2⟩), (2, .goto ⟨1⟩), (1, .goto ⟨3⟩), (3, .ret (some 11))] ∧
      List.Forall₂ (Tracks [⟨0⟩, ⟨1⟩, ⟨2⟩, ⟨3⟩])
        ((Dialect.word swapModule plainPlatform (swapModule.callOf ⟨0⟩ frame swapState)).runFunc
          swapModule ⟨0⟩ swapState.world 5)
        ((run plainPlatform fn.blocks k 0 swapState).filter fun T => T.block < 4) := by
  have hok : (swapModule.select riscv32).toOption.isSome = true := by decide +kernel
  cases hselect : swapModule.select riscv32 with
  | error e =>
    rw [hselect] at hok
    cases hok
  | ok prog =>
    obtain ⟨fn, frame, hfn, hframe, -, htracks⟩ := select_preserves (m := swapModule) (f := ⟨0⟩)
      ⟨swapActions, rfl⟩ (by decide +kernel) (by decide +kernel)
      (by unfold CallFree; decide +kernel) swapModule_ssaForm hselect
    obtain ⟨k, hk⟩ := htracks plainPlatform (swapModule.callOf ⟨0⟩ frame swapState) swapState rfl
      (called_callOf ..) 5
    refine ⟨prog, fn, frame, k, rfl, hfn, ?_, hk⟩
    obtain rfl : frame = ⟨0, 0, []⟩ := Except.ok.inj (hframe.symm.trans (by rfl))
    decide +kernel

end Module

end SsaCodegen
