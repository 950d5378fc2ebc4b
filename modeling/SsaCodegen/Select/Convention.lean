import SsaCodegen.Select.Address

/-!
# Calls and function boundaries

On entry a function makes room for its frame, copies the registers that it has to keep into virtual
registers, and takes its parameters from argument registers and the stack. On return it puts
everything back.
-/

namespace SsaCodegen

/-- The physical registers that a function keeps for its caller, each with its copy. -/
abbrev Saves := List (Target.PhysReg × Target.Reg)

namespace Scope

open SelectM

/-- Copy registers into virtual registers. -/
def saveEach : List Target.PhysReg → SelectM (Saves × Code)
  | [] => return ([], [])
  | r :: rest => do
    let copy ← newReg (some ("save." ++ r.name))
    let (saves, code) ← saveEach rest
    return ((r, copy) :: saves, .mv copy (.phys r) :: code)

/-- Take a parameter that is passed on the stack, the `index`-th such. -/
def takeStackParam (sc : Scope) (param : ValueId) (dst : Target.Reg) (index : Nat) :
    SelectM Code := do
  let op ← loadOp param (sc.module.types.size (← sc.module.ty param))
  let offset ← sc.frame.incomingOffset index sc.target.word
  let (mem, code) ← sc.target.stackSlot (Int64.ofNat offset)
  return code ++ [⟨op, some dst, [.mem mem]⟩]

/-- Take parameters, the first of which has number `index`. -/
def takeParams (sc : Scope) (index : Nat) : List ValueId → SelectM Code
  | [] => return []
  | param :: rest => do
    let dst ← sc.valueReg param
    let code ← match sc.target.paramRegs[index]? with
      | some r => pure [.mv dst (.phys r)]
      | none => sc.takeStackParam param dst (index - sc.target.paramRegs.length)
    return code ++ (← sc.takeParams (index + 1) rest)

/-- The instructions at the start of a function, and the registers it keeps. -/
def prologue (sc : Scope) (params : List ValueId) : SelectM (Saves × Code) := do
  let room ← if sc.frame.size > 0 then sc.target.adjustStack (-Int64.ofNat sc.frame.size)
    else pure []
  let (saves, saveCode) ← saveEach (sc.target.calleeSaved ++ [sc.target.returnAddr])
  let paramCode ← sc.takeParams 0 params
  return (saves, room ++ saveCode ++ paramCode)

/-- The registers of the arguments of a call. -/
def argRegs (sc : Scope) (inst : ValueId) :
    List ValueId → SelectM (List (ValueId × Target.Reg) × Code)
  | [] => return ([], [])
  | arg :: rest => do
    let (r, code) ← sc.regOf inst arg
    let (args, restCode) ← sc.argRegs inst rest
    return ((arg, r) :: args, code ++ restCode)

/-- Pass an argument on the stack, the `index`-th such. -/
def passStackArg (sc : Scope) (inst arg : ValueId) (src : Target.Reg) (index : Nat) :
    SelectM Code := do
  let op ← storeOp inst (sc.module.types.size (← sc.module.ty arg))
  let offset ← sc.frame.outgoingOffset index sc.target.word
  let (mem, code) ← sc.target.stackSlot (Int64.ofNat offset)
  return code ++ [⟨op, none, [.reg src, .mem mem]⟩]

/-- Pass arguments, the first of which has number `index`. -/
def passArgs (sc : Scope) (inst : ValueId) (index : Nat) :
    List (ValueId × Target.Reg) → SelectM Code
  | [] => return []
  | (arg, src) :: rest => do
    let code ← match sc.target.paramRegs[index]? with
      | some r => pure [.mv (.phys r) src]
      | none => sc.passStackArg inst arg src (index - sc.target.paramRegs.length)
    return code ++ (← sc.passArgs inst (index + 1) rest)

/-- A call. -/
def lowerCall (sc : Scope) (inst : ValueId) (callee : FuncId) : SelectM Code := do
  if sc.module.funcs.size ≤ callee.idx then refuse (.missingFunction inst callee)
  let x ← sc.module.value inst
  let (args, argCode) ← sc.argRegs inst x.operands
  let passCode ← sc.passArgs inst 0 args
  let code := argCode ++ passCode ++ [⟨.call, none, [.func callee.idx]⟩]
  if x.ty = .void then return code
  else return code ++ [.mv (← sc.valueReg inst) (.phys sc.target.result)]

/-- A return: put back the registers that were kept, place the result and give up the frame. -/
def lowerReturn (sc : Scope) (saves : Saves) (inst : ValueId) : SelectM Code := do
  let (value, code) ← match (← sc.module.operands inst).head? with
    | some v => do
      let (r, code) ← sc.regOf inst v
      pure (some r, code)
    | none => pure (none, [])
  let restore := saves.map fun (r, copy) => Target.Inst.mv (.phys r) copy
  let place := value.toList.map fun r => Target.Inst.mv (.phys sc.target.result) r
  let leave ← if sc.frame.size > 0 then sc.target.adjustStack (Int64.ofNat sc.frame.size)
    else pure []
  return code ++ restore ++ place ++ leave ++ [⟨.ret, none, []⟩]

end Scope

end SsaCodegen
