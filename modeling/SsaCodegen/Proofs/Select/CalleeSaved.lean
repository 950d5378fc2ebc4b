import SsaCodegen.Proofs.Select.Assembly
import SsaCodegen.Proofs.Select.Preservation

/-!
# What a function gives back to its caller

On entry a function moves the stack pointer and copies the registers that it has to keep; on return
it puts them back. In between its code writes to none of them and to none of the copies, so a
function that returns has put back what it found.

What it found is what was there when control last came to the first block, since that is where the
code on entry stands. A branch back to the first block runs that code again: the stack pointer moves
down once more, and what is put back into the return address register is what a call may have left
there by then. The registers that calls keep are right even so.

## Main definitions

* `Entered` — a function has set up its frame and made its copies
* `Restored` — the stack pointer and the registers that a function keeps are as they were
* `Tidy` — code that puts everything back before it returns

## Main results

* `Tidy.exec` — how tidy code is left
* `Scope.selectBlocks_tidy` — the blocks of a function are tidy
* `Module.select_restores` — what a function gives back
-/

namespace SsaCodegen

open Target SelectM Registers

variable {p : Platform} {saves : Saves} {size : Nat} {st₀ st st' : State} {code : Code}

/-! ## Before and after -/

/-- The stack pointer, the registers that a function keeps and their copies. -/
def reserved (saves : Saves) : Set Reg :=
  {r | r = State.sp ∨ ∃ q ∈ saves, r = .phys q.1 ∨ r = q.2}

/-- The registers that are copied are those that a function keeps, and the copies are virtual. -/
structure Complete (saves : Saves) : Prop where
  regs : saves.map Prod.fst = riscv32.calleeSaved ++ [riscv32.returnAddr]
  virt : ∀ q ∈ saves, ∃ k, q.2 = .virt k

/-- A function that was entered in state `st₀` has set up its frame and made its copies. -/
structure Entered (saves : Saves) (size : Nat) (st₀ st : State) : Prop where
  sp : st.get State.sp = st₀.get State.sp - .ofNat 32 size
  kept : ∀ r ∈ riscv32.calleeSaved, st.get (.phys r) = st₀.get (.phys r)
  copies : ∀ q ∈ saves, st.get q.2 = st₀.get (.phys q.1)

/-- The stack pointer and the registers that a function keeps are as they were. -/
structure Restored (st₀ st : State) : Prop where
  sp : st.get State.sp = st₀.get State.sp
  kept : ∀ r ∈ riscv32.calleeSaved ++ [riscv32.returnAddr], st.get (.phys r) = st₀.get (.phys r)

theorem Complete.mem_fst (hc : Complete saves) {r : PhysReg} :
    (∃ q ∈ saves, q.1 = r) ↔ r ∈ riscv32.calleeSaved ++ [riscv32.returnAddr] := by
  rw [← hc.regs, List.mem_map]

theorem Complete.phys_mem (hc : Complete saves) {r : PhysReg}
    (hr : r ∈ riscv32.calleeSaved ++ [riscv32.returnAddr]) : .phys r ∈ reserved saves := by
  obtain ⟨q, hq, rfl⟩ := hc.mem_fst.2 hr
  exact .inr ⟨q, hq, .inl rfl⟩

/-- A machine register that is reserved is the stack pointer or one that a function keeps. -/
theorem Complete.phys_notMem (hc : Complete saves) {r : PhysReg}
    (hr : r ∉ riscv32.stackPointer :: (riscv32.calleeSaved ++ [riscv32.returnAddr])) :
    .phys r ∉ reserved saves := by
  rintro (heq | ⟨q, hq, heq | heq⟩)
  · exact hr (by rw [Reg.phys.inj heq]; exact List.mem_cons_self)
  · refine hr (List.mem_cons_of_mem _ (hc.mem_fst.1 ⟨q, hq, ?_⟩))
    exact (Reg.phys.inj heq).symm
  · obtain ⟨k, hk⟩ := hc.virt q hq
    rw [hk] at heq
    cases heq

/-- What leaves the reserved registers alone keeps a function entered. -/
theorem Entered.congr (h : Entered saves size st₀ st) (hc : Complete saves)
    (hget : ∀ r ∈ reserved saves, State.isKept r = true → st'.get r = st.get r) :
    Entered saves size st₀ st' where
  sp := (hget _ (.inl rfl) rfl).trans h.sp
  kept r hr := by
    have hkept : ∀ r ∈ riscv32.calleeSaved, State.isKept (.phys r) = true := by decide
    rw [hget _ (hc.phys_mem (List.mem_append_left _ hr)) (hkept r hr), h.kept r hr]
  copies q hq := by
    obtain ⟨k, hk⟩ := hc.virt q hq
    rw [hget _ (.inr ⟨q, hq, .inr rfl⟩) (by rw [hk]; rfl), h.copies q hq]

theorem Restored.congr (h : Restored st₀ st) (hc : Complete saves)
    (hget : ∀ r ∈ reserved saves, st'.get r = st.get r) : Restored st₀ st' where
  sp := (hget _ (.inl rfl)).trans h.sp
  kept r hr := (hget _ (hc.phys_mem hr)).trans (h.kept r hr)

/-! ## Code that puts everything back -/

/-- Code that puts back what was there when the function was entered. -/
def PutsBack (p : Platform) (saves : Saves) (size : Nat) (code : Code) : Prop :=
  ∀ st, ∃ st', Does p code st st' ∧ ∀ {st₀}, Entered saves size st₀ st → Restored st₀ st'

/-- Code that puts everything back before it returns, and otherwise leaves the reserved registers
alone. -/
inductive Tidy (p : Platform) (saves : Saves) (size : Nat) : Code → Prop where
  | nil : Tidy p saves size []
  | cons {i : Inst} {code : Code} : i.op ≠ .ret → (∀ r, i.dst = some r → r ∉ reserved saves) →
    Tidy p saves size code → Tidy p saves size (i :: code)
  | ret {back tail code : Code} : PutsBack p saves size back → Calm (reserved saves) tail →
    Tidy p saves size code → Tidy p saves size (back ++ tail ++ ⟨.ret, none, []⟩ :: code)

/-- How a function may be left that was entered in state `st₀`: it goes on with its frame and its
copies, or returns with everything put back. -/
def Exits (saves : Saves) (size : Nat) (st₀ : State) (result : Target.Exit × State) : Prop :=
  match result.1 with
  | .goto _ => Entered saves size st₀ result.2
  | .ret => Restored st₀ result.2
  | .stuck => True

theorem Exits.of_stuck {result : Target.Exit × State} (h : result.1 = .stuck) :
    Exits saves size st₀ result := by
  rw [Exits, h]
  trivial

theorem PutsBack.straight (h : PutsBack p saves size code) : Straight code := by
  obtain ⟨st', hdoes, -⟩ := h ⟨fun _ => 0, ⟨fun _ => 0, []⟩⟩
  exact hdoes.straight

namespace Tidy

theorem of_spares {code rest : Code} (h : Spares (reserved saves) code)
    (hrest : Tidy p saves size rest) : Tidy p saves size (code ++ rest) := by
  induction code with
  | nil => exact hrest
  | cons i code ih =>
    obtain ⟨⟨-, hret, hdst⟩, hcode⟩ := List.forall_mem_cons.1 h
    exact .cons hret hdst (ih hcode)

theorem append {code rest : Code} (h : Tidy p saves size code) (hrest : Tidy p saves size rest) :
    Tidy p saves size (code ++ rest) := by
  induction h with
  | nil => exact hrest
  | cons hret hdst _ ih => exact .cons hret hdst ih
  | @ret back tail code hback htail _ ih =>
    rw [List.append_assoc (back ++ tail)]
    exact .ret hback htail ih

/-- Calm code may be put before control transfers. -/
theorem insert {code new : Code} (h : Tidy p saves size code) (hnew : Calm (reserved saves) new)
    {body exit : Code} (hsplit : code = body ++ exit) (hexit : ∀ i ∈ exit, i.op.isControl = true) :
    Tidy p saves size (body ++ new ++ exit) := by
  induction h generalizing body with
  | nil =>
    obtain ⟨rfl, rfl⟩ := List.append_eq_nil_iff.1 hsplit.symm
    exact of_spares hnew.spares .nil
  | @cons i code hret hdst hcode ih =>
    cases body with
    | nil =>
      obtain rfl := hsplit
      exact of_spares hnew.spares (.cons hret hdst hcode)
    | cons j body =>
      obtain ⟨rfl, rfl⟩ := List.cons.inj hsplit
      exact .cons hret hdst (ih rfl)
  | @ret back tail code hback htail hcode ih =>
    have hstraight := hback.straight.append htail.straight
    rcases List.append_eq_append_iff.1 hsplit with ⟨mid, hbody, hrest⟩ | ⟨mid, hpiece, hexits⟩
    · cases mid with
      | nil =>
        -- right before the return
        rw [List.append_nil] at hbody
        rw [List.nil_append] at hrest
        rw [hbody, ← hrest, List.append_assoc back]
        exact .ret hback (htail.append hnew) hcode
      | cons i mid =>
        obtain ⟨rfl, rfl⟩ := List.cons.inj hrest
        have hlater := Tidy.ret hback htail (ih rfl)
        rw [hbody]
        simpa using hlater
    · -- what puts everything back passes on no control, so the exit begins after it
      obtain rfl : mid = [] := by
        refine List.eq_nil_iff_forall_not_mem.2 fun i hi => ?_
        have hcontrol := hexit i (by rw [hexits]; exact List.mem_append_left _ hi)
        rw [hstraight i (by rw [hpiece]; exact List.mem_append_right _ hi)] at hcontrol
        cases hcontrol
      rw [List.append_nil] at hpiece
      rw [List.nil_append] at hexits
      rw [← hpiece, hexits, List.append_assoc back]
      exact .ret hback (htail.append hnew) hcode

theorem exec {code : Code} (h : Tidy p saves size code) (hc : Complete saves)
    (hst : Entered saves size st₀ st) : Exits saves size st₀ (Target.exec p code st) := by
  induction h generalizing st with
  | nil => exact .of_stuck rfl
  | @cons i code hret hdst _ ih =>
    have heffect := i.step_effect p st
    rw [Target.exec]
    cases hstep : i.step p st with
    | next st₁ =>
      refine ih (hst.congr hc fun r hr hkept => Inst.step_get hstep (fun heq => hdst r heq hr) ?_)
      exact fun _ => hkept
    | fall => exact ih hst
    | goto b => exact hst
    | stuck => exact .of_stuck rfl
    | ret =>
      rw [hstep] at heffect
      cases heffect with
      | ret hop => exact absurd hop hret
  | @ret back tail code hback htail _ _ =>
    obtain ⟨st₁, hdoes, hrestored⟩ := hback st
    rw [List.append_assoc, hdoes.exec]
    rcases htail.exec p st₁ (⟨.ret, none, []⟩ :: code) with hstuck | ⟨st₂, hexec, hget⟩
    · exact .of_stuck hstuck
    · rw [hexec]
      exact (hrestored hst).congr hc hget

end Tidy

namespace Scope

variable {sc : Scope} {s s' : Registers} {v : ValueId} {b : BlockId} {edges : EdgeBlocks}

/-! ## Entry and return -/

/-- New registers with no value are apart from all that will be handed out. -/
theorem apart_of_scratch (hs : s'.Wf) (h : ∀ q ∈ saves, Scratch s s' q.2) :
    s'.Apart (reserved saves) where
  wf := hs
  knows r hr := by
    rcases hr with rfl | ⟨q, hq, rfl | rfl⟩
    · exact s'.knows_phys _
    · exact s'.knows_phys _
    · exact (h q hq).has.knows
  held {v r} hv hr := by
    have hvirt := hs.virt hv
    rcases hr with rfl | ⟨q, hq, rfl | rfl⟩
    · exact hvirt.ne_phys _ rfl
    · exact hvirt.ne_phys _ rfl
    · exact (h q hq).2 v hv

/-- After the code on entry a function is entered. -/
theorem prologue_entered {params : List ValueId} {entry : Code} (ht : sc.target = riscv32)
    (hs : s.Wf) (h : sc.prologue params s = .ok ((saves, entry), s')) :
    Complete saves ∧ s'.Apart (reserved saves) ∧ ∀ st rest,
      (exec p (entry ++ rest) st).1 = .stuck ∨ ∃ st',
        exec p (entry ++ rest) st = exec p rest st' ∧ Entered saves sc.frame.size st st' := by
  unfold prologue at h
  dsimp only at h
  rw [ht] at h
  obtain ⟨room, s₁, h, hg, hroom⟩ := adjustIf_ok (p := p) hs h
  obtain ⟨⟨saves', saveCode⟩, s₂, hsave, h⟩ := bind_ok.1 h
  obtain ⟨paramCode, s₃, hparams, h⟩ := bind_ok.1 h
  obtain ⟨heq, rfl⟩ := pure_ok.1 h
  cases heq
  obtain ⟨hg', hmap, hscratch, hcopy⟩ := saveEach_ok (p := p) (hg.wf hs) hsave
  have hc : Complete saves' := ⟨hmap, fun q hq => by
    obtain ⟨k, hk, -⟩ := (hscratch q hq).has
    exact ⟨k, hk⟩⟩
  have hs₂ := apart_of_scratch ((hg.trans hg').wf hs) hscratch
  obtain ⟨hg₃, hcalm⟩ := takeParams_keeps hs₂ hparams
  have hsaved (st : State) : ∃ st', Does p (room ++ saveCode) st st' ∧
      Entered saves' sc.frame.size st st' := by
    obtain ⟨st₁, hdoes, hwrites⟩ := hroom st
    obtain ⟨st₂, hdoes', hquiet, hget⟩ := hcopy st₁
    have hphys (r : PhysReg) : st₂.get (.phys r) = st₁.get (.phys r) :=
      hquiet.get (s₁.knows_phys r).not_scratch
    have hregs : ∀ r ∈ riscv32.calleeSaved ++ [riscv32.returnAddr], Reg.phys r ≠ State.sp := by
      decide
    have hsame {r : PhysReg} (hr : r ∈ riscv32.calleeSaved ++ [riscv32.returnAddr]) :
        st₁.get (.phys r) = st.get (.phys r) :=
      hwrites.get (hregs r hr) (s.knows_phys r).not_scratch
    refine ⟨st₂, hdoes.append hdoes', ?_, fun r hr => ?_, fun q hq => ?_⟩
    · rw [hphys, hwrites.value]
      split
      · rw [Word.lit_neg, Word.lit_ofNat, ← BitVec.sub_eq_add_neg]
      · have hsize : sc.frame.size = 0 := by omega
        rw [hsize]
        simp
    · rw [hphys, hsame (List.mem_append_left _ hr)]
    · rw [hget q hq, hsame (hc.mem_fst.1 ⟨q, hq, rfl⟩)]
  refine ⟨hc, hs₂.grows hg₃, fun st rest => ?_⟩
  obtain ⟨st₁, hdoes, hentered⟩ := hsaved st
  rw [List.append_assoc, hdoes.exec]
  refine (hcalm.exec p st₁ rest).imp_right ?_
  rintro ⟨st', hexec, hget⟩
  exact ⟨st', hexec, hentered.congr hc fun r hr _ => hget r hr⟩

/-- The code of a return puts everything back. -/
theorem putsBack_ok (hc : Complete saves) (value : Option Reg) {leave : Code}
    (hleave : ∀ st, ∃ st', Does p leave st st' ∧ Writes s s' State.sp
      (st.get State.sp + if size > 0 then Word.lit (Int64.ofNat size) else 0#32) st st') :
    PutsBack p saves size ((saves.map fun (r, copy) => Inst.mv (.phys r) copy) ++
      (value.toList.map fun r => Inst.mv (.phys riscv32.result) r) ++ leave) := by
  intro st
  obtain ⟨st₁, hdoes₁, -, hother, hback⟩ := restore_ok (p := p) saves st
  obtain ⟨st₂, hdoes₂, -, -, hplace⟩ := place_ok (p := p) value st₁
  obtain ⟨st₃, hdoes₃, hwrites⟩ := hleave st₂
  refine ⟨st₃, (hdoes₁.append hdoes₂).append hdoes₃, fun {st₀} hst => ⟨?_, fun r hr => ?_⟩⟩
  · have hsp : ∀ r ∈ riscv32.calleeSaved ++ [riscv32.returnAddr], State.sp ≠ .phys r := by decide
    have hsp₂ : st₂.get State.sp = st.get State.sp := by
      rw [hplace (by decide), hother fun q hq => hsp _ (hc.mem_fst.1 ⟨q, hq, rfl⟩)]
    rw [hwrites.value, hsp₂, hst.sp]
    split
    · rw [Word.lit_ofNat, BitVec.sub_add_cancel]
    · have hsize : size = 0 := by omega
      rw [hsize]
      simp
  · obtain ⟨q, hq, rfl⟩ := hc.mem_fst.2 hr
    have hregs : ∀ r ∈ riscv32.calleeSaved ++ [riscv32.returnAddr], Reg.phys r ≠ State.zero ∧
        Reg.phys r ≠ State.sp ∧ Reg.phys r ≠ .phys riscv32.result := by decide
    obtain ⟨-, hsp, hresult⟩ := hregs q.1 hr
    rw [hwrites.get hsp (s.knows_phys _).not_scratch, hplace hresult]
    refine hback (fun r => st₀.get (.phys r)) ?_ ?_ hst.copies q hq
    · exact fun x hx => (hregs x.1 (hc.mem_fst.1 ⟨x, hx, rfl⟩)).1
    · intro x hx r heq
      obtain ⟨k, hk⟩ := hc.virt x hx
      rw [hk] at heq
      cases heq

/-- The end of a return, once its value is in a register. -/
theorem leave_tidy (ht : sc.target = riscv32) (hc : Complete saves) {value : Option Reg}
    {valueCode : Code} (hcalm : Calm (reserved saves) valueCode) :
    Keeps (reserved saves) (do
      let restore := saves.map fun (r, copy) => Inst.mv (.phys r) copy
      let place := value.toList.map fun r => Inst.mv (.phys sc.target.result) r
      let leave ← if sc.frame.size > 0 then sc.target.adjustStack (Int64.ofNat sc.frame.size)
        else pure []
      return valueCode ++ restore ++ place ++ leave ++ [Inst.mk .ret none []])
      (Tidy p saves sc.frame.size) := by
  intro s s' code hs h
  dsimp only at h
  rw [ht] at h
  obtain ⟨leave, s₁, h, hg, hleave⟩ := adjustIf_ok (p := p) hs.wf h
  obtain ⟨rfl, rfl⟩ := pure_ok.1 h
  refine ⟨hg, ?_⟩
  have htidy := Tidy.of_spares hcalm.spares
    (.ret (putsBack_ok hc value hleave) (List.forall_mem_nil _) .nil)
  simpa using htidy

theorem lowerReturn_tidy (ht : sc.target = riscv32) (hc : Complete saves) :
    Keeps (reserved saves) (sc.lowerReturn saves v) (Tidy p saves sc.frame.size) := by
  refine .lookup fun operands => ?_
  dsimp only
  split
  case h_1 o _ =>
    refine .bind regOf_keeps fun r hr => ?_
    refine .bind (P := fun q => Calm (reserved saves) q.2) (.pure hr) fun q hcalm => ?_
    exact leave_tidy ht hc hcalm
  case h_2 =>
    refine .bind (P := fun q => Calm (reserved saves) q.2) (.pure nofun) fun q hcalm => ?_
    exact leave_tidy ht hc hcalm

/-! ## Instructions -/

theorem lowerInst_tidy (ht : sc.target = riscv32) (hc : Complete saves) :
    Keeps (reserved saves) (sc.lowerInst saves edges b v) (Tidy p saves sc.frame.size) := by
  have hparams : ∀ r ∈ riscv32.paramRegs,
      r ∉ riscv32.stackPointer :: (riscv32.calleeSaved ++ [riscv32.returnAddr]) := by decide
  refine lowerInst_keeps ?_ ?_ ?_ fun _ => lowerReturn_tidy ht hc
  · rw [ht]
    exact fun r hr => hc.phys_notMem (hparams r hr)
  · intro _ code hcode
    simpa using Tidy.of_spares hcode .nil
  · intro callee _ setup rest hsetup hrest
    have hrest : Tidy p saves sc.frame.size (rest ++ []) := .of_spares hrest.spares .nil
    rw [List.append_nil] at hrest
    exact .of_spares hsetup.spares (.cons nofun nofun hrest)

theorem lowerInsts_tidy (ht : sc.target = riscv32) (hc : Complete saves) {insts : List ValueId} :
    Keeps (reserved saves) (sc.lowerInsts saves edges b insts) (Tidy p saves sc.frame.size) := by
  induction insts with
  | nil => exact .pure .nil
  | cons v rest ih =>
    refine .bind (lowerInst_tidy (p := p) ht hc) fun code hcode => .bind ih fun later hlater => ?_
    exact .pure (hcode.append hlater)

/-! ## Blocks -/

/-- The code of a block, which is given by its number, is tidy, in the first block after the code on
entry. -/
def TidyInsts (p : Platform) (saves : Saves) (size : Nat) (entry : Code) (n : Nat) (insts : Code) :
    Prop :=
  ∃ code, insts = (if n = 0 then entry else []) ++ code ∧ Tidy p saves size code

theorem CodeAt.tidy {S : Registers} {n : Nat} (ht : sc.target = riscv32) (hc : Complete saves)
    (h : sc.CodeAt (reserved saves) saves edges S n code) : Tidy p saves sc.frame.size code := by
  rw [CodeAt] at h
  split at h
  · obtain ⟨insts, r, r', -, hr, -, hlower⟩ := h
    exact (lowerInsts_tidy ht hc hr hlower).2
  · obtain ⟨k, rfl⟩ := h
    exact .cons (by rintro ⟨⟩) (by rintro _ ⟨⟩) .nil

/-- The first block of a function begins with the code on entry, after which every block is tidy. -/
theorem selectBlocks_tidy (ht : sc.target = riscv32) {y : Func} {loops : LoopNest}
    {blocks : List Target.Block} (h : sc.selectBlocks y loops {} = .ok (blocks, s')) :
    ∃ saves entry, Complete saves ∧
      (∀ st rest, (exec p (entry ++ rest) st).1 = .stuck ∨ ∃ st',
        exec p (entry ++ rest) st = exec p rest st' ∧ Entered saves sc.frame.size st st') ∧
      ∀ n B, blocks[n]? = some B → TidyInsts p saves sc.frame.size entry n B.insts := by
  obtain ⟨saves, entry, s₀, edges, hentry, -, -, hblocks⟩ := selectBlocks_wraps h
  obtain ⟨hc, hs₀, henter⟩ := prologue_entered (p := p) ht .empty hentry
  refine ⟨saves, entry, hc, henter, fun n B hB => ?_⟩
  obtain ⟨code, hcode, fill, moves, body, exit, hfill, hmoves, hsplit, hexit, hinsts⟩ :=
    hblocks _ hs₀ hB
  have htidy := Tidy.of_spares hfill.spares (hcode.tidy (p := p) ht hc)
  exact ⟨_, hinsts, htidy.insert hmoves hsplit hexit⟩

end Scope

/-! ## Runs -/

/-- How often a run comes back to the first block. -/
def reentries (visits : List Target.Visit) : Nat := visits.countP fun V => V.exit = .goto 0

/-- The state in which a run that started in the first block last came to it. -/
def lastEntry (st : State) (visits : List Target.Visit) : State :=
  visits.foldl (fun st V => if V.exit = .goto 0 then V.state else st) st

/-- What a function with a frame of some size has given back when it returns in state `st'`, at the
end of a run that started in the first block in state `st` and then did the visits `before`. -/
structure GivesBack (size : Nat) (st : State) (before : List Target.Visit) (st' : State) :
    Prop where
  kept : ∀ r ∈ riscv32.calleeSaved, st'.get (.phys r) = st.get (.phys r)
  sp : st'.get State.sp = st.get State.sp - .ofNat 32 (reentries before * size)
  returnAddr : st'.get (.phys riscv32.returnAddr) =
    (lastEntry st before).get (.phys riscv32.returnAddr)

theorem reentries_cons (V : Target.Visit) (visits : List Target.Visit) :
    reentries (V :: visits) = reentries visits + if V.exit = .goto 0 then 1 else 0 := by
  simp [reentries, List.countP_cons]

theorem lastEntry_cons (st : State) (V : Target.Visit) (visits : List Target.Visit) :
    lastEntry st (V :: visits) = lastEntry (if V.exit = .goto 0 then V.state else st) visits := rfl

/-- Control comes to a block of a function that was entered in state `st₀`: to the first in that
state, to any other with the frame and the copies. -/
def Comes (saves : Saves) (size : Nat) (st₀ : State) (n : Nat) (st : State) : Prop :=
  if n = 0 then st = st₀ else Entered saves size st₀ st

section Runs

variable {blocks : List Target.Block} {entry : Code} (hc : Complete saves)
  (henter : ∀ st rest, (exec p (entry ++ rest) st).1 = .stuck ∨ ∃ st',
    exec p (entry ++ rest) st = exec p rest st' ∧ Entered saves size st st')
  (htidy : ∀ n B, blocks[n]? = some B → Scope.TidyInsts p saves size entry n B.insts)
include hc henter htidy

theorem Comes.exits {n : Nat} {B : Target.Block} (h : Comes saves size st₀ n st)
    (hB : blocks[n]? = some B) : Exits saves size st₀ (exec p B.insts st) := by
  obtain ⟨code, hinsts, hcode⟩ := htidy n B hB
  rw [hinsts]
  rw [Comes] at h
  split at h
  · rw [if_pos (by assumption), h]
    rcases henter st₀ code with hstuck | ⟨st', hexec, hentered⟩
    · exact .of_stuck hstuck
    · rw [hexec]
      exact hcode.exec hc hentered
  · rw [if_neg (by assumption)]
    exact hcode.exec hc h

theorem Comes.run {n i : Nat} {before : List Target.Visit} {last : Target.Visit}
    (h : Comes saves size st₀ i st) (hrun : Target.run p blocks n i st = before ++ [last])
    (hret : last.exit = .ret) : GivesBack size st₀ before last.state := by
  induction n generalizing i st st₀ before with
  | zero => simp [Target.run] at hrun
  | succ n ih =>
    cases hB : blocks[i]? with
    | none =>
      rw [Target.run, hB] at hrun
      obtain ⟨-, heq⟩ := List.append_inj' ((List.nil_append _).trans hrun) rfl
      cases heq
      cases hret
    | some B =>
      have hexits := h.exits hc henter htidy hB
      cases hexec : exec p B.insts st with | mk exit st₁
      rw [hexec] at hexits
      cases exit with
      | ret =>
        rw [run_ret hB hexec] at hrun
        obtain ⟨rfl, heq⟩ := List.append_inj' ((List.nil_append _).trans hrun) rfl
        cases heq
        refine ⟨fun r hr => hexits.kept r (List.mem_append_left _ hr), ?_, ?_⟩
        · simpa [reentries] using hexits.sp
        · exact hexits.kept _ (by simp)
      | stuck =>
        rw [Target.run, hB] at hrun
        simp only [hexec] at hrun
        obtain ⟨-, heq⟩ := List.append_inj' ((List.nil_append _).trans hrun) rfl
        cases heq
        cases hret
      | goto j =>
        rw [run_goto hB hexec] at hrun
        cases before with
        | nil =>
          obtain ⟨rfl, -⟩ := List.cons.inj hrun
          cases hret
        | cons V before =>
          obtain ⟨rfl, htail⟩ := List.cons.inj hrun
          by_cases hj : j = 0
          · -- the function is entered anew
            subst hj
            have hcomes : Comes saves size st₁ 0 st₁ := (if_pos rfl).mpr rfl
            have hback := ih hcomes htail
            refine ⟨fun r hr => (hback.kept r hr).trans (hexits.kept r hr), ?_, hback.returnAddr⟩
            rw [hback.sp, hexits.sp, reentries_cons, if_pos rfl, Nat.add_mul, Nat.one_mul,
              BitVec.ofNat_add, BitVec.sub_sub, BitVec.add_comm]
          · have hcomes : Comes saves size st₀ j st₁ := (if_neg hj).mpr hexits
            have hback := ih hcomes htail
            have hexit : ¬(Target.Exit.goto j = .goto 0) := fun heq => hj (Target.Exit.goto.inj heq)
            refine ⟨hback.kept, ?_, ?_⟩
            · rw [hback.sp, reentries_cons, if_neg hexit, Nat.add_zero]
            · rw [hback.returnAddr, lastEntry_cons, if_neg hexit]

end Runs

theorem reentries_eq_zero {visits : List Target.Visit} (h : ∀ V ∈ visits, V.exit ≠ .goto 0) :
    reentries visits = 0 := by
  simpa [reentries, List.countP_eq_zero] using h

theorem lastEntry_eq {visits : List Target.Visit} (h : ∀ V ∈ visits, V.exit ≠ .goto 0)
    (st : State) : lastEntry st visits = st := by
  induction visits with
  | nil => rfl
  | cons V visits ih =>
    obtain ⟨hV, hvisits⟩ := List.forall_mem_cons.1 h
    rw [lastEntry_cons, if_neg hV, ih hvisits]

theorem GivesBack.restored {visits : List Target.Visit} (h : GivesBack size st visits st')
    (hnever : ∀ V ∈ visits, V.exit ≠ .goto 0) : Restored st st' where
  sp := by
    rw [h.sp, reentries_eq_zero hnever, Nat.zero_mul]
    exact BitVec.sub_zero _
  kept r hr := by
    rcases List.mem_append.1 hr with hr | hr
    · exact h.kept r hr
    · rw [List.mem_singleton.1 hr, h.returnAddr, lastEntry_eq hnever]

namespace Module

variable {m : Module}

/-- A function of a program is external and has no code, or its code was selected. -/
theorem selectFunc_of_mem {t : Target.Spec} {prog : Target.Program} {F : Target.Func}
    (h : m.select t = .ok prog) (hF : F ∈ prog.functions) :
    F.blocks = [] ∨ ∃ f, m.selectFunc t f = .ok F := by
  obtain ⟨f, -, y, -, hcases⟩ := forall₂_exists_of_mem (select_each h).flip hF
  rcases hcases with ⟨-, rfl⟩ | ⟨-, hf⟩
  · exact .inl rfl
  · exact .inr ⟨f, hf⟩

theorem selectFunc_givesBack {f : FuncId} {F : Target.Func} (h : m.selectFunc riscv32 f = .ok F)
    {n : Nat} {before : List Target.Visit} {last : Target.Visit}
    (hrun : run p F.blocks n 0 st = before ++ [last]) (hret : last.exit = .ret) :
    GivesBack F.frameSize st before last.state := by
  obtain ⟨y, frame, loops, blocks, regs, -, -, hblocks, rfl⟩ := selectFunc_parts h
  obtain ⟨saves, entry, hc, henter, htidy⟩ := Scope.selectBlocks_tidy (p := p) rfl hblocks
  have hcomes : Comes saves frame.size st 0 st := (if_pos rfl).mpr rfl
  exact hcomes.run hc henter htidy hrun hret

/-- What a function of a selected program gives back to its caller whenever it returns: every
callee-saved register as it was, the stack pointer lowered by one frame for each time that control
came back to the first block, and in the return address register what was there when control last
came to the first block. If it never came back, everything is as it was. -/
theorem select_restores {prog : Target.Program} {F : Target.Func}
    (hselect : m.select riscv32 = .ok prog) (hF : F ∈ prog.functions) {p : Platform} {st : State}
    {n : Nat} {before : List Target.Visit} {last : Target.Visit}
    (hrun : run p F.blocks n 0 st = before ++ [last]) (hret : last.exit = .ret) :
    GivesBack F.frameSize st before last.state ∧
      ((∀ V ∈ before, V.exit ≠ .goto 0) → Restored st last.state) := by
  rcases selectFunc_of_mem hselect hF with hnone | ⟨f, hf⟩
  · rw [hnone] at hrun
    cases n with
    | zero => simp [run] at hrun
    | succ n =>
      obtain ⟨-, heq⟩ := List.append_inj' ((List.nil_append _).trans hrun) rfl
      cases heq
      cases hret
  · have hback := selectFunc_givesBack hf hrun hret
    exact ⟨hback, hback.restored⟩

/-- Calls that build a function whose frame of 2048 bytes can be made with an immediate but not
given up with one. It makes a call in each of two turns of a loop. -/
def turnActions : List Action := [
  .declareClass "buffer" (List.replicate 512 ("x", .i32)),
  .addFunction "ext" .void [], .addFunction "f" .i32 [("n", .i32)],
  .addBlock ⟨1⟩ "entry", .addBlock ⟨1⟩ "loop", .addBlock ⟨1⟩ "exit",
  .build ⟨0⟩ (.alloca (.cls "buffer")), .build ⟨0⟩ (.i32 0), .build ⟨0⟩ (.br ⟨1⟩),
  .build ⟨1⟩ (.phi .i32), .build ⟨1⟩ (.call ⟨0⟩ []), .build ⟨1⟩ (.i32 1),
  .build ⟨1⟩ (.binary .add ⟨7⟩ ⟨9⟩), .build ⟨1⟩ (.i32 2), .build ⟨1⟩ (.compare .slt ⟨10⟩ ⟨11⟩),
  .build ⟨1⟩ (.condBr ⟨12⟩ ⟨1⟩ ⟨2⟩), .build ⟨2⟩ (.ret (some ⟨0⟩)),
  .build ⟨1⟩ (.addIncoming ⟨7⟩ ⟨5⟩ ⟨0⟩), .build ⟨1⟩ (.addIncoming ⟨7⟩ ⟨10⟩ ⟨1⟩)]

/-- The module that `turnActions` build. -/
def turnModule : Module := (turnActions.foldlM Action.run {}).toOption.getD {}

/-- A state with the numbers of machine registers in them. -/
def numberedState : State :=
  ⟨fun r => match r with
    | .phys r => .ofNat 32 r.num
    | .virt _ => 0, ⟨fun _ => 0, []⟩⟩

/-- The code of a function of a module, if it can be selected. -/
def codeOf? (m : Module) (f : Nat) : Option Target.Func := do
  let prog ← (m.select riscv32).toOption
  prog.functions[f]?

theorem exists_of_codeOf? {f : Nat} {F : Target.Func} (h : m.codeOf? f = some F) :
    ∃ prog, m.select riscv32 = .ok prog ∧ prog.functions[f]? = some F := by
  obtain ⟨prog, hprog, hF⟩ := Option.bind_eq_some_iff.1 h
  cases hselect : m.select riscv32 with
  | error e =>
    rw [hselect] at hprog
    cases hprog
  | ok prog' =>
    rw [hselect] at hprog
    cases hprog
    exact ⟨prog, rfl, hF⟩

/-- After two turns and two calls everything is as it was. The block on the edge around the loop has
number 3. -/
theorem select_restores_turn :
    ∃ prog F before last, turnModule.select riscv32 = .ok prog ∧ F ∈ prog.functions ∧
      F.frameSize = 2048 ∧ run plainPlatform F.blocks 5 0 numberedState = before ++ [last] ∧
      before.map (fun V => (V.block, V.exit)) =
        [(0, .goto 1), (1, .goto 3), (3, .goto 1), (1, .goto 2)] ∧
      last.exit = .ret ∧ Restored numberedState last.state := by
  have hrun : (turnModule.codeOf? 1).map (fun F => (F.frameSize,
      (run plainPlatform F.blocks 5 0 numberedState).map fun V => (V.block, V.exit))) =
      some (2048, [(0, .goto 1), (1, .goto 3), (3, .goto 1), (1, .goto 2)] ++ [(2, .ret)]) := by
    decide +kernel
  obtain ⟨F, hF, heq⟩ := Option.map_eq_some_iff.1 hrun
  obtain ⟨hsize, hvisits⟩ := Prod.mk.inj heq
  obtain ⟨before, lasts, hsplit, hbefore, hlasts⟩ := List.map_eq_append_iff.1 hvisits
  obtain ⟨last, rfl, hlast⟩ := List.map_eq_singleton_iff.1 hlasts
  obtain ⟨prog, hselect, hplace⟩ := exists_of_codeOf? hF
  have hmem := List.mem_of_getElem? hplace
  have hret : last.exit = .ret := congrArg Prod.snd hlast
  refine ⟨prog, F, before, last, hselect, hmem, hsize, hsplit, hbefore, hret,
    (select_restores hselect hmem hsplit hret).2 fun V hV hexit => ?_⟩
  have hall : ∀ q ∈ before.map (fun V => (V.block, V.exit)), q.2 ≠ .goto 0 := by
    rw [hbefore]
    decide
  exact hall _ (List.mem_map_of_mem hV) hexit

/-- Calls that build a function with a variable, a call and a branch back to its first block. -/
def reentryActions : List Action := [
  .addFunction "g" .void [], .addFunction "f" .void [("c", .bool)],
  .addBlock ⟨1⟩ "entry", .addBlock ⟨1⟩ "exit",
  .build ⟨0⟩ (.alloca .i32), .build ⟨0⟩ (.call ⟨0⟩ []), .build ⟨0⟩ (.condBr ⟨0⟩ ⟨0⟩ ⟨1⟩),
  .build ⟨1⟩ (.ret none)]

/-- The module that `reentryActions` build. -/
def reentryModule : Module := (reentryActions.foldlM Action.run {}).toOption.getD {}

/-- A function that was accepted need not give back the stack pointer or the return address. -/
theorem select_reentry_sinks :
    reentryModule.Built ∧ reentryModule.verify = .ok none ∧
      ∃ prog F, reentryModule.select riscv32 = .ok prog ∧ F ∈ prog.functions ∧
        ∃ last ∈ run plainPlatform F.blocks 3 0 numberedState, last.exit = .ret ∧
          last.state.get State.sp ≠ numberedState.get State.sp ∧
          last.state.get (.phys riscv32.returnAddr) ≠
            numberedState.get (.phys riscv32.returnAddr) := by
  refine ⟨⟨reentryActions, rfl⟩, by decide +kernel, ?_⟩
  have hrun : (reentryModule.codeOf? 1).map (fun F =>
      (run plainPlatform F.blocks 3 0 numberedState).any fun V => V.exit = .ret ∧
        V.state.get State.sp ≠ numberedState.get State.sp ∧
        V.state.get (.phys riscv32.returnAddr) ≠
          numberedState.get (.phys riscv32.returnAddr)) = some true := by
    decide +kernel
  obtain ⟨F, hF, hany⟩ := Option.map_eq_some_iff.1 hrun
  obtain ⟨prog, hselect, hplace⟩ := exists_of_codeOf? hF
  have hmem := List.mem_of_getElem? hplace
  obtain ⟨last, hlast, hsinks⟩ := List.any_eq_true.1 hany
  exact ⟨prog, F, hselect, hmem, last, hlast, of_decide_eq_true hsinks⟩

end Module

end SsaCodegen
