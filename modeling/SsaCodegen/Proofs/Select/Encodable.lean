import SsaCodegen.Proofs.Select.Arguments
import SsaCodegen.Proofs.Select.CalleeSaved
import SsaCodegen.Proofs.Select.Drafts

/-!
# Immediates that fit

A machine instruction has 12 bits for a signed number and `lui` has 20 bits. Constants, indices,
offsets and the sizes of frames can be any number, and what does not fit is put together in a
register. So no code that is selected holds a number that its instruction has no room for.

## Main definitions

* `Target.Operand.Encodable` — an operand fits its instruction

## Main results

* `Module.select_encodable` — every operand of every instruction fits
-/

namespace SsaCodegen

open Target SelectM Registers

/-- An instruction has room for the number in an operand: 20 bits in `lui`, 12 bits with a sign in
any other instruction and in a displacement. -/
def Target.Operand.Encodable (op : Opcode) : Operand → Prop
  | .imm n => if op = .lui then 0 ≤ n ∧ n ≤ 0xfffff else -2048 ≤ n ∧ n ≤ 2047
  | .mem ⟨_, .imm d⟩ => -2048 ≤ d ∧ d ≤ 2047
  | _ => True

/-- A number of 12 bits stays itself when it is cut down to 32 bits. -/
theorem toInt32_bounds {n : Int64} (h : -2048 ≤ n ∧ n ≤ 2047) :
    -2048 ≤ n.toInt32 ∧ n.toInt32 ≤ 2047 := by
  rw [Int64.le_iff_toInt_le, Int64.le_iff_toInt_le] at h
  have hlow : (-2048 : Int) ≤ n.toInt := h.1
  have hhigh : n.toInt ≤ 2047 := h.2
  have hsame : n.toInt32.toInt = n.toInt := by
    rw [Int64.toInt_toInt32]
    refine Int.bmod_eq_of_le ?_ ?_ <;> omega
  rw [Int32.le_iff_toInt_le, Int32.le_iff_toInt_le, hsame]
  exact ⟨hlow, hhigh⟩

namespace Realm

variable {e : Realm} {op : Opcode} {o : Operand}

theorem Short.bounds (hmin : e.scope.target.immMin = -2048) (hmax : e.scope.target.immMax = 2047)
    {n : Int64} (h : e.Short n) : -2048 ≤ n ∧ n ≤ 2047 := by
  rcases h with h | h
  · rw [Spec.fitsImm, hmin, hmax, Bool.and_eq_true, decide_eq_true_iff, decide_eq_true_iff] at h
    exact h
  · exact h

theorem Admits.encodable (hmin : e.scope.target.immMin = -2048)
    (hmax : e.scope.target.immMax = 2047) (h : e.Admits op o) : o.Encodable op := by
  cases o with
  | reg | global | globalHi | globalLo | block | func => exact trivial
  | imm n =>
    rw [Admits] at h
    rw [Operand.Encodable]
    split at h
    · rename_i hop
      rw [if_pos hop]
      exact h
    · rename_i hop
      rw [if_neg hop]
      exact Short.bounds hmin hmax h
  | mem a =>
    obtain ⟨base, disp⟩ := a
    cases disp with
    | globalLo => exact trivial
    | imm d =>
      obtain ⟨-, n, hn, rfl⟩ := h
      exact toInt32_bounds (hn.bounds hmin hmax)

end Realm

namespace Module

/-- Whatever the module, the machine and the numbers in the program, every instruction that is
selected has room for its operands. -/
theorem select_encodable {m : Module} {t : Target.Spec} {prog : Target.Program}
    (hmin : t.immMin = -2048) (hmax : t.immMax = 2047) (h : m.select t = .ok prog)
    {F : Target.Func} (hF : F ∈ prog.functions) {B : Target.Block} (hB : B ∈ F.blocks) {i : Inst}
    (hi : i ∈ B.insts) {o : Operand} (ho : o ∈ i.srcs) : o.Encodable i.op := by
  rcases selectFunc_of_mem h hF with hnil | ⟨f, hf⟩
  · rw [hnil] at hB
    cases hB
  · rw [selectFunc_eq] at hf
    cases hsel : m.selection t f with
    | error stop =>
      rw [hsel] at hf
      cases hf
    | ok q =>
      rw [hsel] at hf
      cases hf
      obtain ⟨y, frame, loops, -, -, hblocks⟩ := selection_ok hsel
      have hadmits := Scope.selectBlocks_admits (G := Set.univ) (F := Set.univ) hblocks
        fun b hb v hv => ⟨fun x _ g _ _ => Set.mem_univ _, fun c _ x _ g _ _ => Set.mem_univ _,
          fun f _ _ => Set.mem_univ _⟩
      have hmem : i ∈ codeOf q.1.blocks := List.mem_flatMap.2 ⟨B, hB, hi⟩
      exact ((hadmits i hmem).2 o ho).encodable hmin hmax

/-- Calls that build a function with a frame of 2048 bytes and numbers next to the ends of what
fits. -/
def edgyActions : List Action := [
  .declareClass "buffer" (List.replicate 512 ("x", .i32)),
  .addFunction "f" .i32 [("x", .i32)],
  .addBlock ⟨0⟩ "entry", .build ⟨0⟩ (.alloca (.cls "buffer")),
  .build ⟨0⟩ (.i32 0x7fffffff), .build ⟨0⟩ (.binary .add ⟨0⟩ ⟨3⟩),
  .build ⟨0⟩ (.i32 2048), .build ⟨0⟩ (.binary .add ⟨4⟩ ⟨5⟩),
  .build ⟨0⟩ (.ret (some ⟨6⟩))]

/-- The module that `edgyActions` build. -/
def edgyModule : Module := (edgyActions.foldlM Action.run {}).toOption.getD {}

/-- There are numbers in two parts in the code of that function, one with the upper part `0x80000`
and one with the lower part `-2048`, and everything fits. -/
theorem select_encodable_edgy :
    riscv32.immMin = -2048 ∧ riscv32.immMax = 2047 ∧ ∃ prog F, edgyModule.select riscv32 = .ok prog ∧
      F ∈ prog.functions ∧ (∃ B ∈ F.blocks, (∃ i ∈ B.insts, i.op = .lui ∧ .imm 0x80000 ∈ i.srcs) ∧
        ∃ i ∈ B.insts, i.op = .addi ∧ .imm (-2048) ∈ i.srcs) ∧
      ∀ B ∈ F.blocks, ∀ i ∈ B.insts, ∀ o ∈ i.srcs, o.Encodable i.op := by
  have hcode : (edgyModule.codeOf? 0).map (fun F => F.blocks.any fun B =>
      (B.insts.any fun i => i.op = .lui ∧ .imm 0x80000 ∈ i.srcs) &&
        B.insts.any fun i => i.op = .addi ∧ .imm (-2048) ∈ i.srcs) = some true := by
    decide +kernel
  obtain ⟨F, hF, hany⟩ := Option.map_eq_some_iff.1 hcode
  obtain ⟨prog, hselect, hplace⟩ := exists_of_codeOf? hF
  have hmem := List.mem_of_getElem? hplace
  refine ⟨rfl, rfl, prog, F, hselect, hmem, ?_, fun B hB i hi o ho =>
    select_encodable rfl rfl hselect hmem hB hi ho⟩
  obtain ⟨B, hB, hboth⟩ := List.any_eq_true.1 hany
  obtain ⟨hlui, haddi⟩ := Bool.and_eq_true_iff.1 hboth
  obtain ⟨i, hi, hi'⟩ := List.any_eq_true.1 hlui
  obtain ⟨j, hj, hj'⟩ := List.any_eq_true.1 haddi
  exact ⟨B, hB, ⟨i, hi, of_decide_eq_true hi'⟩, j, hj, of_decide_eq_true hj'⟩

end Module

end SsaCodegen
