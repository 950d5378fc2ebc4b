import SsaCodegen.Proofs.Select.Arguments
import SsaCodegen.Proofs.Select.Materialize

/-!
# Addresses of elements and fields

The address of an element is the base plus the index times the size of an element, and the address of
a field is the base plus the offset of the field, both up to multiples of 2^32. It makes no
difference whether the index is a constant, so that the product is worked out beforehand with 64
bits, or is in a register, so that the machine multiplies words.

## Main results

* `Word.add_mul_eq_ofInt` — words add and multiply as the numbers do that they are low bits of
* `Scope.lowerGep_dst` — the code for an address writes its register and new registers
* `Scope.lowerGep_exact` — what the code for an address does
-/

namespace SsaCodegen

open Target SelectM Registers

theorem Word.add_mul_eq_ofInt (x : Word) (n : Int) (size : Nat) :
    x + .ofInt 32 n * .ofNat 32 size = .ofInt 32 (x.toInt + n * size) := by
  rw [BitVec.ofInt_add, BitVec.ofInt_mul, BitVec.ofInt_toInt, BitVec.ofInt_natCast]

theorem Ty.className_eq_some_iff {ty : Ty} {name : String} :
    ty.className = some name ↔ ty = .cls name := by
  obtain ⟨_ | layers, base⟩ := ty <;> cases base <;> simp [Ty.className, Ty.cls]

namespace Scope

variable {sc : Scope} {s s' : Registers} {v : ValueId} {code : Code}

/-- A register that was handed out without a value is scratch. -/
theorem scratch_of_handed {S : Registers} {k : Nat} (h : handed S k s S ≠ 0) :
    Scratch s S (.virt k) := by
  rw [handed] at h
  split at h
  · rename_i hhanded
    obtain ⟨hholds, hle, hlt⟩ := hhanded
    refine ⟨⟨k, rfl, hle, hlt⟩, fun v hv => ?_⟩
    rw [holds_iff.2 ⟨v, hv⟩] at hholds
    cases hholds
  · exact absurd rfl h

/-- The code for an address writes its register and new registers. -/
theorem lowerGep_dst {needsZero : Bool} {dst : Reg} (hs : s.Wf)
    (h : sc.lowerGep v needsZero s = .ok (code, s')) (hheld : s'.held.lookup v = some dst) :
    ∀ i ∈ code, ∀ r, i.dst = some r → r = dst ∨ Scratch s s' r := by
  intro i hi r hr
  cases r with
  | phys r =>
    have hapart : s.Apart (Set.range Reg.phys) := by
      refine ⟨hs, ?_, fun {v r} hv => ?_⟩
      · rintro _ ⟨r, rfl⟩
        exact s.knows_phys r
      · rintro ⟨q, rfl⟩
        exact (hs.virt hv).ne_phys q rfl
    exact absurd ⟨r, rfl⟩ (((lowerGep_keeps hapart h).2 i hi).2.2 _ hr)
  | virt k =>
    let e : Realm := ⟨sc, s', 0, Set.univ, Set.univ⟩
    obtain ⟨-, hemits⟩ := lowerGep_yields (e := e) (k := k) (fun _ _ _ _ _ => trivial) hs h
    have hle : writes k code ≤ handed s' k s s' + owned s' k v := (hemits .refl).bound
    have hpos : 0 < writes k code := List.countP_pos_iff.2 ⟨i, hi, by simp [hr]⟩
    by_cases howned : s'.held.lookup v = some (.virt k)
    · exact .inl (Option.some.inj (howned.symm.trans hheld))
    · rw [owned, if_neg howned] at hle
      exact .inr (scratch_of_handed (by omega))

/-- The index of an element has a word. -/
theorem exists_index_word {index : ValueId} {ty : Ty} {dst base : Reg} (hs : s.Wf)
    (h : sc.lowerElement v index ty dst base s = .ok (code, s')) (p : Platform) (st : State) :
    ∃ i, sc.module.operandWord p s' st index = some i ∧
      ∀ n, sc.module.constOf index = some n → i = .ofInt 32 n.toInt := by
  obtain ⟨kind, hkind, h⟩ := lift_bind_ok.1 h
  have hk := Module.kindOf_of_kind hkind
  have hconst : sc.module.constOf index = kind.asConstInt := by
    rw [Module.constOf, hk, Option.bind_some]
  rw [hconst]
  cases hn : kind.asConstInt with
  | some n =>
    cases kind with
    | const c =>
      refine ⟨.lit n, ?_, ?_⟩
      · rw [Module.operandWord, hk]
        exact congrArg (Option.map Word.lit) hn
      · rintro _ ⟨⟩
        exact Word.lit_eq_ofInt n
    | global | param | block | inst => cases hn
  | none =>
    rw [hn] at h
    obtain ⟨⟨ir, icode⟩, s₁, hindex, h⟩ := bind_ok.1 h
    obtain ⟨⟨scale, scaleCode⟩, s₂, hscale, h⟩ := bind_ok.1 h
    obtain ⟨offset, s₃, hoffset, h⟩ := bind_ok.1 h
    obtain ⟨-, rfl⟩ := pure_ok.1 h
    have hg := (regOf_keeps hs.apart hindex).1
    have hg' := (Target.Spec.loadImm_keeps (hg.wf hs).apart hscale).1
    have hg₃ := (fresh_ok (hg'.wf (hg.wf hs)) hoffset).1
    obtain ⟨i, hi⟩ := exists_operandWord_of_regOf hindex (hg'.trans hg₃) p st
    exact ⟨i, hi, by simp⟩

/-- The code for an address, on a machine with the zero register. It leaves the address in its
register and changes no other registers but new ones. The address of an element is the base plus
the index times the size of what the base points to, up to multiples of 2^32 and whichever of the
numbers with these low 32 bits the index is taken as, a constant index in particular. The address
of a field is the base plus the offset that the field has in the layout of its class. -/
theorem lowerGep_exact {needsZero : Bool} (p : Platform) (hz : sc.target.zero = riscv32.zero)
    (hs : s.Wf) (h : sc.lowerGep v needsZero s = .ok (code, s')) :
    ∃ base index elem dst, (sc.module.operandsOf v)[0]? = some base ∧
      (sc.module.operandsOf v)[1]? = some index ∧ sc.module.tyOf base = some elem.ptr ∧
      s'.held.lookup v = some dst ∧
      (∀ i ∈ code, ∀ r, i.dst = some r → r = dst ∨ Scratch s s' r) ∧
      ∀ st, ∃ x st', sc.module.operandWord p s' st base = some x ∧ Does p code st st' ∧
        st'.world = st.world ∧ (∀ q, q ≠ dst → ¬Scratch s s' q → st'.get q = st.get q) ∧
        (needsZero = false → ∃ i, sc.module.operandWord p s' st index = some i ∧
          (∀ n, sc.module.constOf index = some n → i = .ofInt 32 n.toInt) ∧
          ∀ n : Int, i = .ofInt 32 n →
            st'.get dst = .ofInt 32 (x.toInt + n * sc.module.types.size elem)) ∧
        (needsZero = true → ∃ name layout n field, elem = .cls name ∧
          sc.module.types.layout? name = some layout ∧ sc.module.constOf index = some n ∧ 0 ≤ n ∧
          layout.fields[n.toInt.toNat]? = some field ∧
          st'.get dst = .ofInt 32 (x.toInt + field.offset)) := by
  obtain ⟨base, index, elem, br, bcode, s₁, dst, s₂, rest, hbase, hindex, hty, hbr, hdst, hrest,
    rfl⟩ := lowerGep_parts h
  obtain ⟨hg, hheld, hknows, hadds⟩ := regOf_adds (p := p) hz hs hbr hdst
  have hs₂ := hg.wf hs
  have hne := (hs₂.virt hheld).ne_zero
  have hptr : sc.module.tyOf base = some elem.ptr := by
    obtain ⟨ty, hty, hp⟩ := Option.bind_eq_some_iff.1 hty
    rw [hty, Ty.pointee_eq_some_iff.1 hp]
  have hx (hg₂ : Grows s₂ s') (st : State) : ∃ x, sc.module.operandWord p s' st base = some x :=
    exists_operandWord_of_regOf hbr ((valueReg_ok hdst).1.trans hg₂) p st
  cases needsZero with
  | true =>
    obtain ⟨offset, s₃, hoffset, hfield⟩ := bind_ok.1 hrest
    obtain ⟨rfl, layout, n, hlayout, hn, hpos, ho⟩ := fieldOffset_found hoffset
    obtain ⟨name, hname, hlayout⟩ := Option.bind_eq_some_iff.1 hlayout
    obtain ⟨field, hf, rfl⟩ := Option.map_eq_some_iff.1 ho
    obtain ⟨hg₂, hadd⟩ := addOffset_ok (p := p) hz hs₂ hne hknows hfield
    refine ⟨base, index, elem, dst, hbase, hindex, hptr, hg₂.lookup hheld,
      lowerGep_dst hs h (hg₂.lookup hheld), fun st => ?_⟩
    obtain ⟨x, hx⟩ := hx hg₂ st
    obtain ⟨st', hdoes, hwrites⟩ :=
      hadds hg₂ .refl (stands_of_operandWord hx) fun {st₁} _ => hadd st₁
    refine ⟨x, st', hx, hdoes, hwrites.world, fun q => hwrites.get, nofun, fun _ => ?_⟩
    refine ⟨name, layout, n, field, Ty.className_eq_some_iff.1 hname, hlayout, hn, hpos, hf, ?_⟩
    rw [hwrites.value, Word.lit_ofNat, BitVec.ofInt_add, BitVec.ofInt_toInt, BitVec.ofInt_natCast]
  | false =>
    obtain ⟨hg₂, hadd⟩ := lowerElement_ok (p := p) hz hs₂ hne hknows hrest
    refine ⟨base, index, elem, dst, hbase, hindex, hptr, hg₂.lookup hheld,
      lowerGep_dst hs h (hg₂.lookup hheld), fun st => ?_⟩
    obtain ⟨x, hx⟩ := hx hg₂ st
    obtain ⟨i, hi, hconst⟩ := exists_index_word hs₂ hrest p st
    have hstands := stands_of_operandWord hi
    have hg₁ := (valueReg_ok hdst).1.trans hg₂
    obtain ⟨st', hdoes, hwrites⟩ := hadds hg₂ .refl (stands_of_operandWord hx)
      fun hquiet => hadd .refl (hstands.quiet hquiet hg₁)
    refine ⟨x, st', hx, hdoes, hwrites.world, fun q => hwrites.get, fun _ => ?_, nofun⟩
    refine ⟨i, hi, hconst, ?_⟩
    rintro n rfl
    rw [hwrites.value, Word.add_mul_eq_ofInt]

/-- Calls that build the address of an element of a global variable. The index times the size of an
element takes more than 64 bits. -/
def tableActions : List Module.Action := [
  .addGlobal "table" .i32 none, .addFunction "f" .void [], .addBlock ⟨0⟩ "entry",
  .addConst (.int 0x4000000000000001) .i32, .createInst (.gep false) Ty.i32.ptr [⟨0⟩, ⟨2⟩] none,
  .append ⟨0⟩ ⟨3⟩]

/-- The module that `tableActions` build. -/
def tableModule : Module := (tableActions.foldlM Module.Action.run {}).toOption.getD {}

/-- The scope of its function, on a machine that takes no numbers but zero as immediates. -/
def tableScope : Scope := ⟨tableModule, { riscv32 with immMin := 0, immMax := 0 }, ⟨0, 0, []⟩, [⟨0⟩]⟩

/-- The index counts modulo 2^30. -/
theorem lowerGep_exact_wrapped :
    ∃ code s' dst, tableScope.lowerGep ⟨3⟩ false {} = .ok (code, s') ∧
      s'.held.lookup ⟨3⟩ = some dst ∧
      ∀ p st, ∃ st', Does p code st st' ∧ st'.get dst = p.address 0 + 4#32 := by
  have hok : ((tableScope.lowerGep ⟨3⟩ false {}).toOption.bind fun q =>
      q.2.held.lookup ⟨3⟩).isSome = true := by decide +kernel
  cases hlower : tableScope.lowerGep ⟨3⟩ false {} with
  | error e =>
    rw [hlower] at hok
    cases hok
  | ok q =>
    obtain ⟨code, s'⟩ := q
    rw [hlower] at hok
    obtain ⟨dst, hdst⟩ := Option.isSome_iff_exists.1 hok
    refine ⟨code, s', dst, rfl, hdst, fun p st => ?_⟩
    obtain ⟨base, index, elem, dst', hbase, hindex, hty, hdst', -, hcode⟩ :=
      lowerGep_exact p rfl Wf.empty hlower
    cases hdst.symm.trans hdst'
    obtain ⟨x, st', hx, hdoes, -, -, helement, -⟩ := hcode st
    obtain ⟨i, -, hconst, hget⟩ := helement rfl
    have hoperands : tableModule.operandsOf ⟨3⟩ = [⟨0⟩, ⟨2⟩] := by decide +kernel
    have hkind : tableModule.kindOf ⟨0⟩ = some (.global ⟨0⟩) := by decide +kernel
    have hbaseTy : tableModule.tyOf ⟨0⟩ = some Ty.i32.ptr := by decide +kernel
    have hn : tableModule.constOf ⟨2⟩ = some 0x4000000000000001 := by decide +kernel
    change (tableModule.operandsOf ⟨3⟩)[0]? = some base at hbase
    change (tableModule.operandsOf ⟨3⟩)[1]? = some index at hindex
    rw [hoperands] at hbase hindex
    cases hbase
    cases hindex
    obtain rfl : elem = Ty.i32 :=
      Option.some.inj (congrArg (Option.bind · Ty.pointee) (hty.symm.trans hbaseTy))
    change tableModule.operandWord p s' st ⟨0⟩ = some x at hx
    rw [Module.operandWord, hkind] at hx
    cases hx
    refine ⟨st', hdoes, (hget _ (hconst _ hn)).trans ?_⟩
    rw [BitVec.ofInt_add, BitVec.ofInt_toInt]
    rfl

end Scope

end SsaCodegen
