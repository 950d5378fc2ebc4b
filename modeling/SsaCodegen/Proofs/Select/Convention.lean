import SsaCodegen.Proofs.Select.Body

/-!
# Code at function boundaries

Arguments are passed in registers and, where these run out, on the stack. Before a call the code puts
every argument where the function expects it, and on entry a function finds its own there. The code
on entry leaves each parameter in its register and the stack pointer at the base of the frame; the
code of a return leaves the result in the result register.

## Main definitions

* `Module.Suits` — a platform knows how many arguments the functions take that a function calls
* `Activation.Passed` — an argument is where a function expects it

## Main results

* `Scope.lowerCall_performs` — calls
* `Scope.prologue_ok` — the code on entry
* `Scope.lowerReturn_ok` — returns
-/

namespace SsaCodegen

open Target SelectM Registers

/-- An argument is where a function expects it: in its register, or on the stack above the frame. -/
def Activation.Passed (a : Activation) (m : Module) (st : State) (index : Nat) (param : ValueId) :
    Prop :=
  match riscv32.paramRegs[index]? with
  | some r => st.get (.phys r) = a.args index
  | none => st.world.mem.load (a.base + .ofNat 32 a.frame.size +
      .ofNat 32 ((index - riscv32.paramRegs.length) * riscv32.word)) (m.bytesOf param) = a.args index

theorem Activation.Passed.congr {a : Activation} {m : Module} {st st' : State} {index : Nat}
    {param : ValueId} (h : a.Passed m st index param) (hworld : st'.world = st.world)
    (hget : ∀ r ∈ riscv32.paramRegs, st'.get (.phys r) = st.get (.phys r)) :
    a.Passed m st' index param := by
  rw [Passed] at h ⊢
  split
  · rename_i r hr
    rw [hr] at h
    rw [hget r (List.mem_of_getElem? hr)]
    exact h
  · rename_i hr
    rw [hr] at h
    rw [hworld]
    exact h

/-- A platform knows how many arguments the functions take that a function calls. For a function
that calls none it need not know anything. -/
def Module.Suits (m : Module) (f : FuncId) (p : Platform) : Prop :=
  ∀ {b v callee}, b ∈ m.blocksOf f → v ∈ m.instsOf b →
    m.kindOf v = some (.inst (.call callee)) → p.arity callee.idx = (m.operandsOf v).length

namespace Frame

variable {fr : Frame} {index word offset : Nat}

theorem outgoingOffset_ok (h : fr.outgoingOffset index word = .ok offset) :
    offset = index * word := by
  obtain ⟨n, hn, h⟩ := SsaCodegen.bind_eq_ok.1 h
  rw [← (Size.fit_eq_ok.1 hn).2]
  split at h
  · exact (Except.ok.inj h).symm
  · cases h

theorem incomingOffset_ok (h : fr.incomingOffset index word = .ok offset) :
    offset = fr.size + index * word := by
  obtain ⟨n, hn, h⟩ := SsaCodegen.bind_eq_ok.1 h
  rw [(Size.fit_eq_ok.1 h).2, (Size.fit_eq_ok.1 hn).2]

end Frame

namespace Scope

variable {sc : Scope} {p : Platform} {a : Activation} {s s' : Registers} {v : ValueId} {code : Code}

/-! ## Passing arguments -/

section Calls

variable (ht : sc.target = riscv32) (hs : s.Wf)
include ht hs

/-- The code for the arguments of a call brings their words into registers. -/
theorem argRegs_ok {args : List ValueId} {regs : List (ValueId × Reg)}
    (h : sc.argRegs v args s = .ok ((regs, code), s')) :
    Grows s s' ∧ regs.map Prod.fst = args ∧ (∀ q ∈ regs, s'.Has q.2) ∧
      ∀ {S st ws}, Grows s' S → List.Forall₂ (sc.Stands p S st) args ws →
        ∃ st', Does p code st st' ∧ Quiet s s' st st' ∧
          List.Forall₂ (fun q w => st'.get q.2 = w) regs ws := by
  induction args generalizing s code regs with
  | nil =>
    obtain ⟨heq, rfl⟩ := pure_ok.1 h
    cases heq
    refine ⟨.refl, rfl, nofun, fun {S st ws} _ hws => ⟨st, .nil, .refl, ?_⟩⟩
    rw [List.forall₂_nil_left_iff.1 hws]
    exact .nil
  | cons arg rest ih =>
    obtain ⟨⟨r, argCode⟩, s₁, harg, h⟩ := bind_ok.1 h
    obtain ⟨⟨regs', restCode⟩, s₂, hrest, h⟩ := bind_ok.1 h
    obtain ⟨heq, rfl⟩ := pure_ok.1 h
    cases heq
    obtain ⟨hg, hhas, hcode⟩ := regOf_ok (p := p) (congrArg Spec.zero ht) hs harg
    obtain ⟨hg', hmap, hall, hcode'⟩ := ih (hg.wf hs) hrest
    refine ⟨hg.trans hg', by rw [List.map_cons, hmap],
      List.forall_mem_cons.2 ⟨hg'.has hhas, hall⟩, fun {S st ws} hS hws => ?_⟩
    obtain ⟨w, ws', hw, hws', rfl⟩ := List.forall₂_cons_left_iff.1 hws
    obtain ⟨st₁, hdoes, hquiet, hget⟩ := hcode (hg'.trans hS) hw
    obtain ⟨st', hdoes', hquiet', hgets⟩ :=
      hcode' hS (hws'.imp fun _ _ hx => hx.quiet hquiet (hg'.trans hS))
    refine ⟨st', hdoes.append hdoes', hquiet.trans hquiet' hg hg', .cons ?_ hgets⟩
    rw [hquiet'.get hhas.knows.not_scratch, hget]

/-- The code for an argument on the stack stores it. -/
theorem passStackArg_ok {arg : ValueId} {src : Reg} {index : Nat} (hsrc : s.Has src)
    (h : sc.passStackArg v arg src index s = .ok (code, s')) :
    Grows s s' ∧ ∀ st, ∃ st', Does p code st st' ∧
      st'.world = st.world.store (st.get State.sp + .ofNat 32 (index * riscv32.word))
        (sc.module.bytesOf arg) (st.get src) ∧
      ∀ {q}, ¬Scratch s s' q → st'.get q = st.get q := by
  obtain ⟨ty, hty, h⟩ := lift_bind_ok.1 h
  obtain ⟨op, s₁, hop, h⟩ := bind_ok.1 h
  obtain ⟨hsize, rfl⟩ := storeOp_ok hop
  obtain ⟨offset, hoffset, h⟩ := lift_bind_ok.1 h
  obtain ⟨⟨mem, memCode⟩, s₁, hmem, h⟩ := bind_ok.1 h
  obtain ⟨rfl, rfl⟩ := pure_ok.1 h
  rw [ht] at hmem hoffset
  obtain ⟨hg, hcode⟩ := stackSlot_ok (p := p) hs hmem
  refine ⟨hg, fun st => ?_⟩
  obtain ⟨st₁, hdoes, hquiet, haddr⟩ := hcode st
  refine ⟨_, hdoes.append (.single (step_store p st₁ src mem hsize)), ?_, fun hq => hquiet.get hq⟩
  show st₁.world.store _ _ _ = _
  rw [haddr, Word.lit_ofNat, Frame.outgoingOffset_ok hoffset, hquiet.world,
    Module.bytesOf_of_ty hty, hquiet.get hsrc.knows.not_scratch]

/-- The code for one argument puts it into its register or on the stack. -/
theorem passArg_ok {index : Nat} {arg : ValueId} {src : Reg} {rest : List (ValueId × Reg)}
    (hsrc : s.Has src) (h : sc.passArgs v index ((arg, src) :: rest) s = .ok (code, s')) :
    ∃ here there s₁, sc.passArgs v (index + 1) rest s₁ = .ok (there, s') ∧ code = here ++ there ∧
      Grows s s₁ ∧ ∀ {st}, st.get State.sp = a.base → ∃ st', Does p here st st' ∧
        st'.world = a.pass sc.module index [(arg, st.get src)] st.world ∧
        (∀ r ∈ riscv32.paramRegs[index]?, st'.get (.phys r) = st.get src) ∧
        ∀ {q}, (∀ r ∈ riscv32.paramRegs[index]?, q ≠ .phys r) → ¬Scratch s s₁ q →
          st'.get q = st.get q := by
  unfold passArgs at h
  dsimp only at h
  rw [ht] at h
  cases hreg : riscv32.paramRegs[index]? with
  | some r =>
    rw [hreg] at h
    obtain ⟨here, s₁, hhere, h⟩ := bind_ok.1 h
    obtain ⟨rfl, rfl⟩ := pure_ok.1 hhere
    obtain ⟨there, s₂, hthere, h⟩ := bind_ok.1 h
    obtain ⟨rfl, rfl⟩ := pure_ok.1 h
    have hzero : ∀ r ∈ riscv32.paramRegs, Reg.phys r ≠ State.zero := by decide
    have hlt : index < riscv32.paramRegs.length := (List.getElem?_eq_some_iff.1 hreg).1
    refine ⟨_, there, _, hthere, rfl, .refl, fun {st} _ =>
      ⟨_, .single (step_mv p st _ _), ?_, ?_, fun hq _ => State.get_set_of_ne _ _ (hq r rfl)⟩⟩
    · rw [Activation.pass, Activation.pass, if_pos hlt]
      rfl
    · rintro r' ⟨⟩
      exact State.get_set_self _ _ (hzero r (List.mem_of_getElem? hreg))
  | none =>
    rw [hreg] at h
    obtain ⟨here, s₁, hhere, h⟩ := bind_ok.1 h
    obtain ⟨there, s₂, hthere, h⟩ := bind_ok.1 h
    obtain ⟨rfl, rfl⟩ := pure_ok.1 h
    have hnot : ¬index < riscv32.paramRegs.length :=
      Nat.not_lt_of_le (List.getElem?_eq_none_iff.1 hreg)
    obtain ⟨hg, hcode⟩ := passStackArg_ok (p := p) ht hs hsrc hhere
    refine ⟨here, there, s₁, hthere, rfl, hg, fun {st} hbase => ?_⟩
    obtain ⟨st', hdoes, hworld, hkept⟩ := hcode st
    refine ⟨st', hdoes, ?_, nofun, fun _ hq => hkept hq⟩
    rw [hworld, Activation.pass, Activation.pass, if_neg hnot, hbase]

/-- The code that passes arguments, from a state in which they are in registers. -/
theorem passArgs_ok {index : Nat} {regs : List (ValueId × Reg)} (hregs : ∀ q ∈ regs, s.Has q.2)
    (h : sc.passArgs v index regs s = .ok (code, s')) :
    Grows s s' ∧ ∀ {st ws}, List.Forall₂ (fun q w => st.get q.2 = w) regs ws →
      st.get State.sp = a.base → ∃ st', Does p code st st' ∧
        st'.world = a.pass sc.module index ((regs.map Prod.fst).zip ws) st.world ∧
        (∀ q ∈ (riscv32.paramRegs.drop index).zip ws, st'.get (.phys q.1) = q.2) ∧
        ∀ {q}, (∀ r ∈ riscv32.paramRegs.drop index, q ≠ .phys r) → ¬Scratch s s' q →
          st'.get q = st.get q := by
  induction regs generalizing s code index with
  | nil =>
    obtain ⟨rfl, rfl⟩ := pure_ok.1 h
    refine ⟨.refl, fun {st ws} hws _ => ⟨st, .nil, ?_, ?_, fun _ _ => rfl⟩⟩
    · rw [List.forall₂_nil_left_iff.1 hws]
      rfl
    · rw [List.forall₂_nil_left_iff.1 hws, List.zip_nil_right]
      nofun
  | cons q rest ih =>
    obtain ⟨arg, src⟩ := q
    obtain ⟨hsrc, hrest⟩ := List.forall_mem_cons.1 hregs
    obtain ⟨here, there, s₁, hthere, rfl, hg, hhere⟩ :=
      passArg_ok (p := p) (a := a) ht hs hsrc h
    obtain ⟨hg', hcode⟩ := ih (hg.wf hs) (fun q hq => hg.has (hrest q hq)) hthere
    refine ⟨hg.trans hg', fun {st ws} hws hbase => ?_⟩
    obtain ⟨w, ws', hw, hws', rfl⟩ := List.forall₂_cons_left_iff.1 hws
    obtain ⟨st₁, hdoes, hworld, hpassed, hkept⟩ := hhere hbase
    have hsp : ∀ r ∈ riscv32.paramRegs, State.sp ≠ .phys r := by decide
    have hbase₁ : st₁.get State.sp = a.base := by
      rw [hkept (fun r hr => hsp r (List.mem_of_getElem? hr)) (s.knows_phys _).not_scratch, hbase]
    have hws₁ : List.Forall₂ (fun q w => st₁.get q.2 = w) rest ws' :=
      List.forall₂_iff_zip.2 ⟨hws'.length_eq, fun {q w} hq => by
        have hhas := hrest q (List.of_mem_zip hq).1
        rw [hkept (fun r _ => hhas.ne_phys r) hhas.knows.not_scratch]
        exact (List.forall₂_iff_zip.1 hws').2 hq⟩
    obtain ⟨st', hdoes', hworld', hpassed', hkept'⟩ := hcode hws₁ hbase₁
    have htail : (riscv32.paramRegs.drop index).tail = riscv32.paramRegs.drop (index + 1) :=
      List.tail_drop
    have hhead : riscv32.paramRegs[index]? = (riscv32.paramRegs.drop index).head? :=
      List.head?_drop.symm
    have hnodup : (riscv32.paramRegs.drop index).Nodup := (List.drop_sublist _ _).nodup (by decide)
    rw [hhead] at hpassed hkept
    rw [← htail] at hpassed' hkept'
    refine ⟨st', hdoes.append hdoes', by rw [hworld', hworld, hw]; rfl, ?_, ?_⟩
    · generalize riscv32.paramRegs.drop index = params at *
      cases params with
      | nil => nofun
      | cons r params =>
        -- the register of the argument is none of those that come after
        obtain ⟨hnot, -⟩ := List.nodup_cons.1 hnodup
        refine List.forall_mem_cons.2 ⟨?_, hpassed'⟩
        rw [hkept' (fun r' hr' heq => hnot (by cases heq; exact hr'))
          (s₁.knows_phys r).not_scratch, hpassed r rfl, hw]
    · intro q hq hscratch
      rw [hkept' (fun r hr => hq r (List.mem_of_mem_tail hr)) fun h => hscratch (h.grows_left hg),
        hkept (fun r hr => hq r (List.mem_of_head? hr)) fun h => hscratch (h.grows_right hg')]

omit ht hs in
/-- The words in the registers of a call, when each argument is where it belongs. -/
theorem callArgs_eq {st : State} {f : Nat} {ws : List Word} (harity : p.arity f = ws.length)
    (hpassed : ∀ q ∈ riscv32.paramRegs.zip ws, st.get (.phys q.1) = q.2) :
    st.callArgs p f = ws.take riscv32.paramRegs.length := by
  rw [State.callArgs, harity]
  generalize riscv32.paramRegs = regs at *
  clear harity
  induction regs generalizing ws with
  | nil => simp
  | cons r rest ih =>
    cases ws with
    | nil => simp
    | cons w ws =>
      obtain ⟨hw, hws⟩ := List.forall_mem_cons.1 hpassed
      rw [List.length_cons, List.take_succ_cons, List.map_cons, hw, ih hws, List.length_cons,
        List.take_succ_cons]

/-- The code of a call up to the return from it. -/
theorem call_ok {callee : FuncId} {regs : List (ValueId × Reg)} {argCode passCode : Code}
    {s₁ s₂ : Registers} (hk : sc.module.kindOf v = some (.inst (.call callee)))
    (harity : p.arity callee.idx = (sc.module.operandsOf v).length)
    (hargs : sc.argRegs v (sc.module.operandsOf v) s = .ok ((regs, argCode), s₁))
    (hpass : sc.passArgs v 0 regs s₁ = .ok (passCode, s₂)) :
    Grows s s₂ ∧ ∀ {S st ws}, Grows s₂ S →
      List.Forall₂ (sc.Stands p S st) (sc.module.operandsOf v) ws → st.get State.sp = a.base →
      ∃ st', Does p (argCode ++ passCode ++ [⟨.call, none, [.func callee.idx]⟩]) st st' ∧
        (Dialect.word sc.module p a).exec v ws st.world = (if sc.module.yields v then
          some (st'.get (.phys riscv32.result)) else none, st'.world) ∧
        ∀ {q}, State.isKept q = true → ¬Scratch s s₂ q → st'.get q = st.get q := by
  obtain ⟨hg, hmap, hhas, hcode⟩ := argRegs_ok (p := p) ht hs hargs
  obtain ⟨hg', hcode'⟩ := passArgs_ok (p := p) (a := a) ht (hg.wf hs) hhas hpass
  refine ⟨hg.trans hg', fun {S st ws} hS hws hbase => ?_⟩
  obtain ⟨st₁, hdoes, hquiet, hgets⟩ := hcode (hg'.trans hS) hws
  obtain ⟨st₂, hdoes', hworld, hpassed, hkept⟩ := hcode' hgets (by
    rw [hquiet.get (s.knows_phys _).not_scratch, hbase])
  have hparams : ∀ r ∈ riscv32.paramRegs, State.isKept (.phys r) = false := by decide
  have hget {q : Reg} (hq : State.isKept q = true) (hscratch : ¬Scratch s s₂ q) :
      st₂.get q = st.get q := by
    rw [hkept (fun r hr heq => ?_) fun h => hscratch (h.grows_left hg),
      hquiet.get fun h => hscratch (h.grows_right hg')]
    rw [heq, hparams r hr] at hq
    cases hq
  have hcallArgs : st₂.callArgs p callee.idx = ws.take riscv32.paramRegs.length :=
    callArgs_eq (harity.trans hws.length_eq) hpassed
  have hsp : st₂.get State.sp = a.base := (hget rfl (s.knows_phys _).not_scratch).trans hbase
  refine ⟨st₂.call p callee.idx, (hdoes.append hdoes').append (.single (step_call p st₂ _)), ?_,
    fun hq hscratch => (State.get_call_of_isKept p st₂ _ hq).trans (hget hq hscratch)⟩
  rw [State.get_call_result, State.call, hcallArgs, hsp, hworld, hmap, hquiet.world]
  simp only [Dialect.word, hk]

omit ht hs in
/-- The parts of the code of a call. What it returns, if it returns something, is moved into the
register of the value. -/
theorem lowerCall_parts {callee : FuncId} (h : sc.lowerCall v callee s = .ok (code, s')) :
    ∃ ty regs argCode passCode s₁ s₂, sc.module.tyOf v = some ty ∧
      sc.argRegs v (sc.module.operandsOf v) s = .ok ((regs, argCode), s₁) ∧
      sc.passArgs v 0 regs s₁ = .ok (passCode, s₂) ∧
      (ty = .void ∧ s₂ = s' ∧ code = argCode ++ passCode ++ [⟨.call, none, [.func callee.idx]⟩] ∨
        ty ≠ .void ∧ ∃ dst, sc.valueReg v s₂ = .ok (dst, s') ∧
          code = argCode ++ passCode ++ [⟨.call, none, [.func callee.idx]⟩] ++
            [.mv dst (.phys sc.target.result)]) := by
  unfold lowerCall at h
  dsimp only at h
  split at h
  · obtain ⟨u, s₁, hrefuse, -⟩ := bind_ok.1 h
    exact absurd hrefuse refuse_ne_ok
  obtain ⟨x, hx, h⟩ := lift_bind_ok.1 h
  have hops : x.operands = sc.module.operandsOf v :=
    (Module.valueField_eq (Module.value_eq_ok.1 hx)).symm
  have hty : sc.module.tyOf v = some x.ty := Module.valueField_eq (Module.value_eq_ok.1 hx)
  obtain ⟨⟨regs, argCode⟩, s₁, hargs, h⟩ := bind_ok.1 h
  obtain ⟨passCode, s₂, hpass, h⟩ := bind_ok.1 h
  rw [hops] at hargs
  refine ⟨x.ty, regs, argCode, passCode, s₁, s₂, hty, hargs, hpass, ?_⟩
  by_cases hvoid : x.ty = .void
  · rw [if_pos hvoid] at h
    obtain ⟨rfl, rfl⟩ := pure_ok.1 h
    exact .inl ⟨hvoid, rfl, rfl⟩
  · rw [if_neg hvoid] at h
    obtain ⟨dst, s₃, hdst, h⟩ := bind_ok.1 h
    obtain ⟨rfl, rfl⟩ := pure_ok.1 h
    exact .inr ⟨hvoid, dst, hdst, rfl⟩

theorem lowerCall_performs {callee : FuncId} (hk : sc.module.kindOf v = some (.inst (.call callee)))
    (harity : p.arity callee.idx = (sc.module.operandsOf v).length)
    (h : sc.lowerCall v callee s = .ok (code, s')) : sc.Performs p a s s' v code := by
  obtain ⟨ty, regs, argCode, passCode, s₁, s₂, hty, hargs, hpass, hcases⟩ := lowerCall_parts h
  have hyields : sc.module.yields v = decide (ty ≠ .void) := by simp [Module.yields, hk, hty]
  obtain ⟨hg, hcalled⟩ := call_ok (a := a) ht hs hk harity hargs hpass
  rcases hcases with ⟨hvoid, rfl, rfl⟩ | ⟨hvoid, dst, hdst, rfl⟩
  · refine ⟨hg, fun {S st ws} hS hws hbase => ?_⟩
    obtain ⟨st', hdoes, hexec, hkept⟩ := hcalled hS hws hbase
    refine ⟨st', hdoes, by rw [hexec], ?_, fun hq _ hscratch => hkept hq hscratch⟩
    intro w r hw
    rw [hexec, hyields, hvoid] at hw
    cases hw
  · rw [ht]
    obtain ⟨hg', hheld⟩ := valueReg_ok hdst
    have hne := ((hg.trans hg').wf hs).virt hheld |>.ne_zero
    refine ⟨hg.trans hg', fun {S st ws} hS hws hbase => ?_⟩
    obtain ⟨st', hdoes, hexec, hkept⟩ := hcalled (hg'.trans hS) hws hbase
    refine ⟨_, hdoes.append (.single (step_mv p st' _ _)), by rw [hexec]; rfl, ?_, ?_⟩
    · intro w r hw hr
      cases (hS.lookup hheld).symm.trans hr
      rw [hexec, hyields, decide_eq_true hvoid] at hw
      rw [State.get_set_self _ _ hne]
      exact Option.some.inj hw
    · intro q hq hqv hscratch
      have hqd : q ≠ dst := fun heq => hqv (by rw [heq]; exact hS.lookup hheld)
      rw [State.get_set_of_ne _ _ hqd]
      exact hkept hq fun h => hscratch (h.grows_right hg')

/-! ## Entry -/

omit ht in
/-- Each register that is kept has a copy in a new register. -/
theorem saveEach_ok {regs : List PhysReg} {saves : Saves}
    (h : saveEach regs s = .ok ((saves, code), s')) :
    Grows s s' ∧ saves.map Prod.fst = regs ∧ (∀ q ∈ saves, Scratch s s' q.2) ∧
      ∀ st, ∃ st', Does p code st st' ∧ Quiet s s' st st' ∧
        ∀ q ∈ saves, st'.get q.2 = st.get (.phys q.1) := by
  induction regs generalizing s code saves with
  | nil =>
    obtain ⟨heq, rfl⟩ := pure_ok.1 h
    cases heq
    exact ⟨.refl, rfl, nofun, fun st => ⟨st, .nil, .refl, nofun⟩⟩
  | cons r rest ih =>
    obtain ⟨copy, s₁, hcopy, h⟩ := bind_ok.1 h
    obtain ⟨⟨saves', code'⟩, s₂, hrest, h⟩ := bind_ok.1 h
    obtain ⟨heq, rfl⟩ := pure_ok.1 h
    cases heq
    obtain ⟨rfl, rfl⟩ := newReg_ok.1 hcopy
    have hg : Grows s _ := .fresh (some ("save." ++ r.name)) .refl
    have hnew := hs.scratch_new (some ("save." ++ r.name))
    obtain ⟨hg', hmap, hscratch, hcode⟩ := ih (hg.wf hs) hrest
    refine ⟨hg.trans hg', congrArg (r :: ·) hmap, ?_, fun st => ?_⟩
    · exact List.forall_mem_cons.2 ⟨hnew.grows_right hg', fun q hq => (hscratch q hq).grows_left hg⟩
    have hne : Reg.virt s.names.length ≠ State.zero := nofun
    have hphys (q : PhysReg) : Reg.phys q ≠ .virt s.names.length := nofun
    obtain ⟨st', hdoes, hquiet, hget⟩ := hcode (st.set (.virt s.names.length) (st.get (.phys r)))
    refine ⟨st', .cons (step_mv p st _ _) hdoes, Quiet.trans ?_ hquiet hg hg', ?_⟩
    · exact (Writes.set s _ st _ hne).quiet hnew
    · refine List.forall_mem_cons.2 ⟨?_, fun q hq => ?_⟩
      · rw [hquiet.get hnew.has.knows.not_scratch, State.get_set_self _ _ hne]
      · rw [hget q hq, State.get_set_of_ne _ _ (hphys q.1)]

theorem takeStackParam_ok {param : ValueId} {dst : Reg} {index : Nat} (hframe : sc.frame = a.frame)
    (hdst : dst ≠ State.zero) (h : sc.takeStackParam param dst index s = .ok (code, s')) :
    Grows s s' ∧ ∀ {st}, st.get State.sp = a.base → ∃ st', Does p code st st' ∧
      Writes s s' dst (st.world.mem.load (a.base + .ofNat 32 a.frame.size +
        .ofNat 32 (index * riscv32.word)) (sc.module.bytesOf param)) st st' := by
  obtain ⟨ty, hty, h⟩ := lift_bind_ok.1 h
  obtain ⟨op, s₁, hop, h⟩ := bind_ok.1 h
  obtain ⟨hsize, rfl⟩ := loadOp_ok hop
  obtain ⟨offset, hoffset, h⟩ := lift_bind_ok.1 h
  obtain ⟨⟨mem, memCode⟩, s₁, hmem, h⟩ := bind_ok.1 h
  obtain ⟨rfl, rfl⟩ := pure_ok.1 h
  rw [ht] at hmem hoffset
  rw [hframe] at hoffset
  obtain ⟨hg, hcode⟩ := stackSlot_ok (p := p) hs hmem
  refine ⟨hg, fun {st} hsp => ?_⟩
  obtain ⟨st₁, hdoes, hquiet, haddr⟩ := hcode st
  refine ⟨_, hdoes.append (.single (step_load p st₁ dst mem hsize)), ?_⟩
  rw [haddr, Word.lit_ofNat, Frame.incomingOffset_ok hoffset, hquiet.world,
    Module.bytesOf_of_ty hty, hsp, BitVec.ofNat_add, BitVec.add_assoc]
  exact hquiet.trans_writes (.set _ _ _ _ hdst) hg .refl

/-- The code that takes one parameter, from its register or from the stack. -/
theorem takeParam_ok {index : Nat} {param : ValueId} {rest : List ValueId}
    (hframe : sc.frame = a.frame) (h : sc.takeParams index (param :: rest) s = .ok (code, s')) :
    ∃ here there dst s₁, sc.takeParams (index + 1) rest s₁ = .ok (there, s') ∧
      code = here ++ there ∧ Grows s s₁ ∧ s₁.held.lookup param = some dst ∧
      ∀ {st}, st.get State.sp = a.base → a.Passed sc.module st index param →
        ∃ st', Does p here st st' ∧ Writes s s₁ dst (a.args index) st st' := by
  obtain ⟨dst, s₁, hdst, h⟩ := bind_ok.1 h
  obtain ⟨hg, hheld⟩ := valueReg_ok hdst
  have hs₁ := hg.wf hs
  have hne := (hs₁.virt hheld).ne_zero
  dsimp only at h
  rw [ht] at h
  cases hreg : riscv32.paramRegs[index]? with
  | some r =>
    rw [hreg] at h
    obtain ⟨here, s₂, hhere, h⟩ := bind_ok.1 h
    obtain ⟨there, s₃, hrest, h⟩ := bind_ok.1 h
    obtain ⟨rfl, rfl⟩ := pure_ok.1 h
    obtain ⟨rfl, rfl⟩ := pure_ok.1 hhere
    refine ⟨_, there, dst, _, hrest, rfl, hg, hheld, fun {st} _ hp => ?_⟩
    rw [Activation.Passed, hreg] at hp
    refine ⟨_, .single (step_mv p st _ _), ?_⟩
    rw [hp]
    exact .set _ _ _ _ hne
  | none =>
    rw [hreg] at h
    obtain ⟨here, s₂, hhere, h⟩ := bind_ok.1 h
    obtain ⟨there, s₃, hrest, h⟩ := bind_ok.1 h
    obtain ⟨rfl, rfl⟩ := pure_ok.1 h
    obtain ⟨hg', hcode⟩ := takeStackParam_ok (p := p) ht hs₁ hframe hne hhere
    refine ⟨here, there, dst, s₂, hrest, rfl, hg.trans hg', hg'.lookup hheld, fun {st} hsp hp => ?_⟩
    rw [Activation.Passed, hreg] at hp
    obtain ⟨st', hdoes, hwrites⟩ := hcode hsp
    rw [hp] at hwrites
    exact ⟨st', hdoes, Quiet.refl.trans_writes hwrites hg hg'⟩

/-- The code that takes parameters leaves each in its register. -/
theorem takeParams_ok {index : Nat} {params : List ValueId} (hframe : sc.frame = a.frame)
    (hnodup : params.Nodup) (h : sc.takeParams index params s = .ok (code, s')) :
    Grows s s' ∧ ∀ {S st}, Grows s' S → st.get State.sp = a.base →
      (∀ {i v}, params[i]? = some v → a.Passed sc.module st (index + i) v) →
      ∃ st', Does p code st st' ∧ st'.world = st.world ∧
        (∀ {i v r}, params[i]? = some v → S.held.lookup v = some r →
          st'.get r = a.args (index + i)) ∧
        ∀ {q}, (∀ v ∈ params, S.held.lookup v ≠ some q) → ¬Scratch s s' q →
          st'.get q = st.get q := by
  induction params generalizing s code index with
  | nil =>
    obtain ⟨rfl, rfl⟩ := pure_ok.1 h
    exact ⟨.refl, fun {S st} _ _ _ => ⟨st, .nil, rfl, nofun, fun _ _ => rfl⟩⟩
  | cons param rest ih =>
    obtain ⟨hnot, hnodup⟩ := List.nodup_cons.1 hnodup
    obtain ⟨here, there, dst, s₁, hrest, rfl, hg, hheld, hhere⟩ :=
      takeParam_ok (p := p) ht hs hframe h
    obtain ⟨hg', hcode⟩ := ih (hg.wf hs) hnodup hrest
    refine ⟨hg.trans hg', fun {S st} hS hsp hpassed => ?_⟩
    have hheldS := hS.lookup (hg'.lookup hheld)
    have hWf : S.Wf := hS.wf ((hg.trans hg').wf hs)
    obtain ⟨st₁, hdoes, hwrites⟩ := hhere hsp (hpassed (i := 0) rfl)
    have hphys (r : PhysReg) : st₁.get (.phys r) = st.get (.phys r) :=
      hwrites.get ((hWf.virt hheldS).ne_phys r).symm (s.knows_phys r).not_scratch
    obtain ⟨st', hdoes', hworld, hparams, hkept⟩ := hcode hS ((hphys _).trans hsp) (by
      intro i v hv
      have hidx : index + 1 + i = index + (i + 1) := by omega
      rw [hidx]
      exact (hpassed (i := i + 1) hv).congr hwrites.world fun r _ => hphys r)
    refine ⟨st', hdoes.append hdoes', hworld.trans hwrites.world, ?_, ?_⟩
    · intro i v r hv hr
      cases i with
      | zero =>
        cases hv
        cases hheldS.symm.trans hr
        refine (hkept (fun v hv hr' => ?_) (hS.not_scratch hr)).trans hwrites.value
        exact hnot (hWf.inj hr' hr ▸ hv)
      | succ i =>
        have hidx : index + (i + 1) = index + 1 + i := by omega
        rw [hidx]
        exact hparams hv hr
    · intro q hq hscratch
      obtain ⟨hqp, hq⟩ := List.forall_mem_cons.1 hq
      have hqd : q ≠ dst := fun heq => hqp (heq ▸ hheldS)
      rw [hkept hq fun h => hscratch (h.grows_left hg),
        hwrites.get hqd fun h => hscratch (h.grows_right hg')]

omit ht in
/-- The stack pointer is moved if there is a frame. -/
theorem adjustIf_ok {c : Prop} [Decidable c] {n : Int64} {next : Code → SelectM α}
    {r : α × Registers}
    (h : (if c then riscv32.adjustStack n >>= next else pure [] >>= next) s = .ok r) :
    ∃ code s₁, next code s₁ = .ok r ∧ Grows s s₁ ∧ ∀ st, ∃ st', Does p code st st' ∧
      Writes s s₁ State.sp (st.get State.sp + if c then Word.lit n else 0#32) st st' := by
  split at h
  · rename_i hc
    obtain ⟨code, s₁, hadjust, h⟩ := bind_ok.1 h
    obtain ⟨hg, hcode⟩ := adjustStack_ok (p := p) hs hadjust
    exact ⟨code, s₁, h, hg, by simpa only [if_pos hc] using hcode⟩
  · rename_i hc
    obtain ⟨code, s₁, hpure, h⟩ := bind_ok.1 h
    obtain ⟨rfl, rfl⟩ := pure_ok.1 hpure
    refine ⟨[], s, h, .refl, fun st => ⟨st, .nil, rfl, ?_, fun _ _ => rfl⟩⟩
    rw [if_neg hc, BitVec.add_zero]

/-- The code on entry makes room for the frame and leaves each parameter in its register. -/
theorem prologue_ok {params : List ValueId} {saves : Saves} (hframe : sc.frame = a.frame)
    (hnodup : params.Nodup) (h : sc.prologue params s = .ok ((saves, code), s')) :
    Grows s s' ∧ ∀ {S st}, Grows s' S → st.get State.sp = a.base + .ofNat 32 a.frame.size →
      (∀ {i v}, params[i]? = some v → a.Passed sc.module st i v) →
      ∃ st', Does p code st st' ∧ st'.world = st.world ∧ st'.get State.sp = a.base ∧
        ∀ {i v r}, params[i]? = some v → S.held.lookup v = some r → st'.get r = a.args i := by
  unfold prologue at h
  dsimp only at h
  rw [ht, hframe] at h
  obtain ⟨room, s₁, h, hg, hroom⟩ := adjustIf_ok (p := p) hs h
  obtain ⟨⟨saves', saveCode⟩, s₂, hsave, h⟩ := bind_ok.1 h
  obtain ⟨paramCode, s₃, hparams, h⟩ := bind_ok.1 h
  obtain ⟨heq, rfl⟩ := pure_ok.1 h
  cases heq
  obtain ⟨hg', -, -, hcode⟩ := saveEach_ok (p := p) (hg.wf hs) hsave
  obtain ⟨hg₃, hcode'⟩ := takeParams_ok (p := p) ht ((hg.trans hg').wf hs) hframe hnodup hparams
  refine ⟨(hg.trans hg').trans hg₃, fun {S st} hS hsp hpassed => ?_⟩
  obtain ⟨st₁, hdoes, hwrites⟩ := hroom st
  obtain ⟨st₂, hdoes', hquiet, -⟩ := hcode st₁
  have hsp₂ : st₂.get State.sp = a.base := by
    rw [hquiet.get (s₁.knows_phys _).not_scratch, hwrites.value, hsp]
    split
    · rw [Word.lit_neg, Word.lit_ofNat, ← BitVec.sub_eq_add_neg, BitVec.add_sub_cancel]
    · have hsize : a.frame.size = 0 := by omega
      rw [hsize, BitVec.add_zero]
      exact BitVec.add_zero a.base
  have hsp_ne : ∀ r ∈ riscv32.paramRegs, Reg.phys r ≠ State.sp := by decide
  obtain ⟨st', hdoes₃, hworld, hargs, hkept⟩ := hcode' hS hsp₂ (by
    intro i v hv
    rw [Nat.zero_add]
    refine (hpassed hv).congr (hquiet.world.trans hwrites.world) fun r hr => ?_
    rw [hquiet.get (s₁.knows_phys r).not_scratch,
      hwrites.get (hsp_ne r hr) (s.knows_phys r).not_scratch])
  have hWf : S.Wf := hS.wf (((hg.trans hg').trans hg₃).wf hs)
  refine ⟨st', (hdoes.append hdoes').append hdoes₃,
    hworld.trans (hquiet.world.trans hwrites.world), ?_, fun {i v r} hv hr => ?_⟩
  · rw [hkept (fun v _ hv => (hWf.virt hv).ne_phys _ rfl) (s₂.knows_phys _).not_scratch, hsp₂]
  · rw [hargs hv hr, Nat.zero_add]

/-! ## Return -/

omit ht hs in
/-- Putting back the registers that were kept changes no others. Each gets what its copy holds. -/
theorem restore_ok (saves : Saves) (st : State) : ∃ st',
    Does p (saves.map fun (r, copy) => Inst.mv (.phys r) copy) st st' ∧ st'.world = st.world ∧
      (∀ {q}, (∀ x ∈ saves, q ≠ .phys x.1) → st'.get q = st.get q) ∧
      ∀ (kept : PhysReg → Word), (∀ x ∈ saves, Reg.phys x.1 ≠ State.zero) →
        (∀ x ∈ saves, ∀ r, x.2 ≠ .phys r) → (∀ x ∈ saves, st.get x.2 = kept x.1) →
        ∀ x ∈ saves, st'.get (.phys x.1) = kept x.1 := by
  induction saves generalizing st with
  | nil => exact ⟨st, .nil, rfl, fun _ => rfl, nofun⟩
  | cons q rest ih =>
    obtain ⟨r, copy⟩ := q
    obtain ⟨st', hdoes, hworld, hget, hkept⟩ := ih (st.set (.phys r) (st.get copy))
    refine ⟨st', .cons (step_mv p st _ _) hdoes, hworld, fun {q} hq => ?_,
      fun kept hzero hvirt hcopies => ?_⟩
    · obtain ⟨hqr, hq⟩ := List.forall_mem_cons.1 hq
      rw [hget hq, State.get_set_of_ne _ _ hqr]
    obtain ⟨hzero, hzeros⟩ := List.forall_mem_cons.1 hzero
    obtain ⟨-, hvirts⟩ := List.forall_mem_cons.1 hvirt
    obtain ⟨hcopy, hcopies⟩ := List.forall_mem_cons.1 hcopies
    have hrest := hkept kept hzeros hvirts fun x hx => by
      rw [State.get_set_of_ne _ _ (hvirts x hx r), hcopies x hx]
    refine List.forall_mem_cons.2 ⟨?_, hrest⟩
    -- a register that is put back again gets the same word again
    by_cases hr : ∃ x ∈ rest, x.1 = r
    · obtain ⟨x, hx, rfl⟩ := hr
      exact hrest x hx
    · rw [hget fun x hx heq => hr ⟨x, hx, (Reg.phys.inj heq).symm⟩, State.get_set_self _ _ hzero,
        hcopy]

omit ht hs in
/-- Placing the result, if there is one. -/
theorem place_ok (value : Option Reg) (st : State) : ∃ st',
    Does p (value.toList.map fun r => Inst.mv (.phys riscv32.result) r) st st' ∧
      st'.world = st.world ∧ (∀ r ∈ value, st'.get (.phys riscv32.result) = st.get r) ∧
      ∀ {q}, q ≠ .phys riscv32.result → st'.get q = st.get q := by
  cases value with
  | none => exact ⟨st, .nil, rfl, nofun, fun _ => rfl⟩
  | some r =>
    refine ⟨_, .single (step_mv p st _ _), rfl, ?_, fun hq => State.get_set_of_ne _ _ hq⟩
    rintro r' ⟨⟩
    exact State.get_set_self _ _ (by decide)

/-- The code of a return leaves the result in the result register. -/
theorem lowerReturn_ok {saves : Saves} (hlen : (sc.module.operandsOf v).length ≤ 1)
    (h : sc.lowerReturn saves v s = .ok (code, s')) :
    Grows s s' ∧ ∀ {S st args}, Grows s' S →
      List.Forall₂ (sc.Stands p S st) (sc.module.operandsOf v) args →
      ∃ st', exec p code st = (.ret, st') ∧ st'.world = st.world ∧
        ∀ w ∈ args.head?, st'.get (.phys riscv32.result) = w := by
  unfold lowerReturn at h
  dsimp only at h
  rw [ht] at h
  obtain ⟨ops, hops, h⟩ := lift_bind_ok.1 h
  have hops := Module.operandsOf_of_operands hops
  rw [hops] at hlen
  -- the value is in a register, if there is one
  obtain ⟨value, valueCode, s₁, h, hg, hvalue⟩ : ∃ (value : Option Reg)
      (valueCode : Code) (s₁ : Registers),
      (do
        let restore := saves.map fun (r, copy) => Inst.mv (.phys r) copy
        let place := value.toList.map fun r => Inst.mv (.phys riscv32.result) r
        let leave ← if sc.frame.size > 0 then riscv32.adjustStack (Int64.ofNat sc.frame.size)
          else pure []
        return valueCode ++ restore ++ place ++ leave ++ [Inst.mk .ret none []]) s₁ =
          .ok (code, s') ∧
      Grows s s₁ ∧ ∀ {S st args}, Grows s₁ S → List.Forall₂ (sc.Stands p S st) ops args →
        ∃ st', Does p valueCode st st' ∧ st'.world = st.world ∧
          value.map (State.get st') = args.head? ∧ ∀ r ∈ value, s₁.Has r := by
    match ops, hlen with
    | [], _ =>
      obtain ⟨value, s₁, hpure, h⟩ := bind_ok.1 h
      obtain ⟨rfl, rfl⟩ := pure_ok.1 hpure
      refine ⟨none, [], s, h, .refl, fun {S st args} _ hargs => ⟨st, .nil, rfl, ?_, nofun⟩⟩
      rw [List.forall₂_nil_left_iff.1 hargs]
      rfl
    | [o], _ =>
      obtain ⟨⟨r, valueCode⟩, s₁, hr, h⟩ := bind_ok.1 h
      obtain ⟨value, s₂, hpure, h⟩ := bind_ok.1 h
      obtain ⟨rfl, rfl⟩ := pure_ok.1 hpure
      obtain ⟨hg, hhas, hcode⟩ := regOf_ok (p := p) (congrArg Spec.zero ht) hs hr
      refine ⟨some r, valueCode, s₁, h, hg, fun {S st args} hS hargs => ?_⟩
      obtain ⟨w, hw, rfl⟩ := Dialect.forall₂_singleton.1 hargs
      obtain ⟨st', hdoes, hquiet, hget⟩ := hcode hS hw
      refine ⟨st', hdoes, hquiet.world, congrArg some hget, ?_⟩
      rintro r' ⟨⟩
      exact hhas
  dsimp only at h
  obtain ⟨leave, s₂, h, hg', hleave⟩ := adjustIf_ok (p := p) (hg.wf hs) h
  obtain ⟨rfl, rfl⟩ := pure_ok.1 h
  refine ⟨hg.trans hg', fun {S st args} hS hargs => ?_⟩
  rw [hops] at hargs
  obtain ⟨st₁, hdoes₁, hworld₁, hhead, hhas⟩ := hvalue (hg'.trans hS) hargs
  obtain ⟨st₂, hdoes₂, hworld₂, hget, -⟩ := restore_ok (p := p) saves st₁
  obtain ⟨st₃, hdoes₃, hworld₃, hplace, -⟩ := place_ok (p := p) value st₂
  obtain ⟨st₄, hdoes₄, hwrites⟩ := hleave st₃
  refine ⟨st₄, ?_, ?_, fun w hw => ?_⟩
  · rw [(((hdoes₁.append hdoes₂).append hdoes₃).append hdoes₄).exec]
    rfl
  · rw [hwrites.world, hworld₃, hworld₂, hworld₁]
  · rw [← hhead] at hw
    obtain ⟨r, hr, rfl⟩ := Option.map_eq_some_iff.1 hw
    obtain ⟨k, rfl, -⟩ := hhas r hr
    rw [hwrites.get (by decide) (s₁.knows_phys _).not_scratch, hplace _ hr,
      hget (q := .virt k) fun _ _ => nofun]

end Calls

end Scope

end SsaCodegen
