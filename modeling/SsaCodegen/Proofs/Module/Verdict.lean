import SsaCodegen.Proofs.Semantics.Graph

/-!
# What a clean verdict says of any module

The verifier looks at each operand, each use and each link on its own. Here is what follows for a
module as a whole, with use lists, links and ends of blocks that may hold anything. The uses of a
value are the operand positions that refer to it. The walk along a block comes to an end, visits
nothing twice, and can be made backwards. Two things do not follow. A use list may name a use twice.
The last instruction of a block, as the block has it, need not be where the walk ends: it is the only
instruction on the way that may be a terminator, but the walk may go on after it or miss it.

## Main definitions

* `Follows` — each item of a list is followed by the next one
* `Module.Strung` — the links of a block are those of a list of instructions

## Main results

* `Follows.nodup` — a list that follows something comes to no item twice
* `Module.mem_usesOf_of_verify` — uses and operands in an accepted module
* `Module.strung_of_blockDefect` — the blocks of an accepted module
* `Module.verify_guarantees` — both, for every module
-/

namespace SsaCodegen

/-! ## Lists along a function -/

/-- Each item of a list is followed by what `next` gives for it. -/
def Follows (next : α → Option α) (l : List α) : Prop :=
  ∀ {p v s}, l = p ++ v :: s → next v = s.head?

namespace Follows

variable {next : α → Option α} {l l' : List α} {v : α}

theorem tail (h : Follows next (v :: l)) : Follows next l := by
  intro p w s hl
  exact h (p := v :: p) (by rw [hl, List.cons_append])

theorem of_append (h : Follows next (l' ++ l)) : Follows next l := by
  induction l' with
  | nil => exact h
  | cons v rest ih => exact ih h.tail

theorem cons (hv : next v = l.head?) (h : Follows next l) : Follows next (v :: l) := by
  intro p w s hl
  cases p with
  | nil =>
    obtain ⟨rfl, rfl⟩ := List.cons.inj hl
    exact hv
  | cons u p => exact h (List.cons.inj hl).2

/-- Two such lists with the same first item are the same. -/
theorem eq_of_head? (h : Follows next l) (h' : Follows next l') (hhead : l.head? = l'.head?) :
    l = l' := by
  induction l generalizing l' with
  | nil => exact (List.head?_eq_none_iff.1 hhead.symm).symm
  | cons v rest ih =>
    cases l' with
    | nil => cases hhead
    | cons w rest' =>
      obtain rfl : v = w := Option.some.inj hhead
      rw [ih h.tail h'.tail ((h (p := []) rfl).symm.trans (h' (p := []) rfl))]

/-- A list that came to an item twice would go round for ever. -/
theorem nodup (h : Follows next l) : l.Nodup := by
  induction l with
  | nil => exact List.nodup_nil
  | cons v rest ih =>
    refine List.nodup_cons.2 ⟨fun hv => ?_, ih h.tail⟩
    obtain ⟨p, s, hs⟩ := List.append_of_mem hv
    have htail : Follows next (p ++ v :: s) := hs ▸ h.tail
    have hsame : v :: rest = v :: s := h.eq_of_head? htail.of_append rfl
    have hlen := congrArg List.length hsame
    simp only [hs, List.length_cons, List.length_append] at hlen
    omega

end Follows

namespace Module

variable {m : Module} {f : FuncId} {b : BlockId} {v : ValueId}

/-! ## Operands and uses -/

theorem valueDefect_of_verify (h : m.verify = .ok none) (hv : v.idx < m.values.size) :
    m.valueDefect v = .ok none := by
  obtain ⟨r, hr, h⟩ := bind_eq_ok.1 h
  cases r with
  | some e => cases h
  | none =>
    have hcheck := firstFinding_eq_none.1 hr v.idx (List.mem_range.2 hv)
    obtain ⟨d, hd, hcheck⟩ := bind_eq_ok.1 hcheck
    cases d with
    | none => exact hd
    | some d =>
      obtain ⟨place, -, hcheck⟩ := bind_eq_ok.1 hcheck
      cases hcheck

/-- Each operand of a value without a defect has its use. -/
theorem mem_usesOf_of_valueDefect (h : m.valueDefect v = .ok none) {i : Nat} {o : ValueId}
    (ho : (m.operandsOf v)[i]? = some o) : ⟨v, i⟩ ∈ m.usesOf o := by
  obtain ⟨x, hx, h⟩ := bind_eq_ok.1 h
  obtain ⟨d, hd, h⟩ := bind_eq_ok.1 h
  cases d with
  | some d => cases h
  | none =>
    rw [operandsOf, valueField_eq (value_eq_ok.1 hx)] at ho
    have hmem : (o, i) ∈ x.operands.zipIdx := List.mk_mem_zipIdx_iff_getElem?.2 ho
    obtain ⟨uses, huses, hcheck⟩ := bind_eq_ok.1 (firstFinding_eq_none.1 hd (o, i) hmem)
    rw [usesOf_of_uses huses]
    split at hcheck
    · rename_i hcontains
      exact List.contains_iff_mem.1 hcontains
    · cases hcheck

/-- Each use of a value without a defect is by an operand. -/
theorem operand_of_valueDefect (h : m.valueDefect v = .ok none) {u : Use} (hu : u ∈ m.usesOf v) :
    (m.operandsOf u.user)[u.index]? = some v := by
  obtain ⟨x, hx, h⟩ := bind_eq_ok.1 h
  obtain ⟨d, hd, h⟩ := bind_eq_ok.1 h
  cases d with
  | some d => cases h
  | none =>
    rw [usesOf, valueField_eq (value_eq_ok.1 hx)] at hu
    obtain ⟨operands, hoperands, hcheck⟩ := bind_eq_ok.1 (firstFinding_eq_none.1 h u hu)
    rw [operandsOf_of_operands hoperands]
    split at hcheck
    · assumption
    · cases hcheck

/-- In an accepted module the uses of a value are the operand positions that refer to it. -/
theorem mem_usesOf_of_verify (h : m.verify = .ok none) {u : Use} :
    u ∈ m.usesOf v ↔ (m.operandsOf u.user)[u.index]? = some v := by
  constructor
  · intro hu
    exact operand_of_valueDefect (valueDefect_of_verify h (lt_of_mem_usesOf hu)) hu
  · intro hv
    have hlt := lt_of_mem_operandsOf (List.mem_of_getElem? hv)
    exact mem_usesOf_of_valueDefect (valueDefect_of_verify h hlt) hv

/-! ## Blocks -/

/-- The links of a block are those of a list of instructions, the first of which is where the block
begins. Only what the block has for its last instruction is a terminator. -/
structure Strung (m : Module) (b : BlockId) (l : List ValueId) (last : ValueId) : Prop where
  ends : m.endsOf b = (l.head?, some last)
  nodup : l.Nodup
  link : ∀ {p v s}, l = p ++ v :: s → m.linkOf v = ⟨some b, p.getLast?, s.head?⟩
  inst : ∀ v ∈ l, ∃ k, m.kindOf v = some (.inst k) ∧ (k.isTerminator = true ↔ v = last)

/-- A walk that comes to an end follows the forward links. -/
theorem follows_walk {fuel : Nat} {start : Option ValueId} (h : (m.walk fuel start).ending = .closed) :
    (m.walk fuel start).insts.head? = start ∧
      Follows (fun v => (m.linkOf v).next) (m.walk fuel start).insts := by
  induction fuel generalizing start with
  | zero =>
    cases start with
    | none => exact ⟨rfl, fun hl => by simp [walk] at hl⟩
    | some v => cases h
  | succ fuel ih =>
    cases start with
    | none => exact ⟨rfl, fun hl => by simp [walk] at hl⟩
    | some v =>
      rw [walk] at h ⊢
      cases hx : m.values[v.idx]? with
      | none =>
        rw [hx] at h
        cases h
      | some x =>
        rw [hx] at h
        obtain ⟨hhead, hfollows⟩ := ih h
        refine ⟨rfl, hfollows.cons ?_⟩
        show (m.linkOf v).next = _
        rw [linkOf, valueField_eq hx, hhead]

theorem lt_of_mem_walk {fuel : Nat} {start : Option ValueId} (h : v ∈ (m.walk fuel start).insts) :
    v.idx < m.values.size := by
  induction fuel generalizing start with
  | zero => cases start <;> cases h
  | succ fuel ih =>
    cases start with
    | none => cases h
    | some w =>
      rw [walk] at h
      cases hx : m.values[w.idx]? with
      | none =>
        rw [hx] at h
        cases h
      | some x =>
        rw [hx] at h
        rcases List.mem_cons.1 h with rfl | h
        · exact (Array.getElem?_eq_some_iff.1 hx).1
        · exact ih h

/-- A walk that comes to an end does so with any number of steps that its instructions need. -/
theorem walk_of_length_le {fuel n : Nat} {start : Option ValueId}
    (h : (m.walk fuel start).ending = .closed) (hn : (m.walk fuel start).insts.length ≤ n) :
    m.walk n start = m.walk fuel start := by
  induction fuel generalizing n start with
  | zero =>
    cases start with
    | none => cases n <;> rfl
    | some v => cases h
  | succ fuel ih =>
    cases start with
    | none => cases n <;> rfl
    | some v =>
      rw [walk] at h hn ⊢
      cases hx : m.values[v.idx]? with
      | none =>
        rw [hx] at h
        cases h
      | some x =>
        rw [hx] at h hn
        cases n with
        | zero => cases hn
        | succ n =>
          rw [walk, hx]
          dsimp only
          rw [ih h (Nat.le_of_succ_le_succ hn)]

/-- What a clean verdict on a walk says of the backward links. -/
theorem chainDefect_link {last : ValueId} {prev : Option ValueId} {inBody : Bool}
    {l p s : List ValueId} (h : m.chainDefect f b last prev inBody l = .ok none)
    (hl : l = p ++ v :: s) :
    (m.linkOf v).block = some b ∧ (m.linkOf v).prev = (prev.toList ++ p).getLast? := by
  induction l generalizing prev inBody p with
  | nil => simp at hl
  | cons inst rest ih =>
    obtain ⟨k, -, hblock, hprev, -, -, -, h⟩ := chainDefect_cons_eq_none h
    cases p with
    | nil =>
      obtain ⟨rfl, -⟩ := List.cons.inj hl
      rw [List.append_nil]
      exact ⟨hblock, hprev.trans (by cases prev <;> rfl)⟩
    | cons u p =>
      obtain ⟨rfl, hrest⟩ := List.cons.inj hl
      obtain ⟨hblock, hprev⟩ := ih h hrest
      refine ⟨hblock, hprev.trans ?_⟩
      rw [Option.toList_some, List.singleton_append, List.getLast?_append, List.getLast?_cons]
      rfl

/-- The blocks of an accepted module. -/
theorem strung_of_blockDefect (h : m.blockDefect f b = .ok none) :
    ∃ l last, m.insts b = .ok l ∧ m.Strung b l last := by
  obtain ⟨x, hx, h⟩ := bind_eq_ok.1 h
  split at h
  · cases h
  rename_i last hlast
  obtain ⟨d, hd, h⟩ := bind_eq_ok.1 h
  cases d with
  | some d => cases h
  | none =>
    obtain ⟨_, hcheck, -⟩ := bind_eq_ok.1 h
    generalize hc : m.walk (m.values.size + 1) x.first = c at hd hcheck
    have hclosed : c.ending = .closed := by
      revert hcheck
      cases c.ending <;> simp [ChainEnd.check]
    obtain ⟨hhead, hfollows⟩ := follows_walk (hc ▸ hclosed)
    rw [hc] at hhead hfollows
    have hlen : c.insts.length ≤ m.values.size :=
      length_le_of_nodup hfollows.nodup fun v hv => lt_of_mem_walk (hc ▸ hv)
    have hchain : m.chain b = .ok c := by
      refine bind_eq_ok.2 ⟨x, hx, congrArg Except.ok ?_⟩
      rw [← hc] at hclosed hlen
      rw [walk_of_length_le hclosed hlen, hc]
    have hinsts : m.insts b = .ok c.insts := bind_eq_ok.2 ⟨c, hchain, bind_eq_ok.2 ⟨_, hcheck, rfl⟩⟩
    refine ⟨c.insts, last, hinsts, ⟨?_, hfollows.nodup, ?_, ?_⟩⟩
    · rw [endsOf, blockField_eq (block_eq_ok.1 hx), hhead, hlast]
    · intro p v s hl
      obtain ⟨hblock, hprev⟩ := chainDefect_link hd hl
      have hnext : (m.linkOf v).next = s.head? := hfollows hl
      have hprev : (m.linkOf v).prev = p.getLast? := hprev
      rw [← hblock, ← hprev, ← hnext]
    · intro v hv
      obtain ⟨k, hk, hterm, -⟩ := chainDefect_mem hd hv
      exact ⟨k, hk, by rw [hterm, decide_eq_true_eq]⟩

/-- The walk along a block ends at its last instruction just if it comes to that instruction and
nothing is linked behind it. -/
theorem Strung.getLast?_eq_some {l : List ValueId} {last : ValueId} (h : m.Strung b l last) :
    l.getLast? = some last ↔ last ∈ l ∧ (m.linkOf last).next = none := by
  constructor
  · intro hl
    obtain ⟨init, rfl⟩ := List.getLast?_eq_some_iff.1 hl
    refine ⟨by simp, ?_⟩
    rw [h.link rfl]
    rfl
  · rintro ⟨hmem, hnext⟩
    obtain ⟨p, s, rfl⟩ := List.append_of_mem hmem
    rw [h.link rfl] at hnext
    rw [List.head?_eq_none_iff.1 hnext]
    simp

theorem blockDefect_of_mem_blocksOf (h : m.verify = .ok none) (hb : b ∈ m.blocksOf f) :
    m.blockDefect f b = .ok none := by
  obtain ⟨y, hy, -⟩ := exists_func_of_blocksOf (List.ne_nil_of_mem hb)
  rw [blocksOf_of_func hy] at hb
  exact blockDefect_of_verify h hy hb

/-- In every module that the verifier accepts, whatever its use lists, links and ends of blocks hold:
the uses of a value are the operand positions that refer to it, each of them once if no use is named
twice. The walk along a block of a function comes to an end, and its links are those of the list of
instructions that it visits. It ends at the block's last instruction if it comes there and nothing is
linked behind. -/
theorem verify_guarantees (h : m.verify = .ok none) :
    (∀ u v i, (⟨u, i⟩ ∈ m.usesOf v ↔ (m.operandsOf u)[i]? = some v) ∧
      ((m.usesOf v).Nodup →
        ((m.usesOf v).count ⟨u, i⟩ = 1 ↔ (m.operandsOf u)[i]? = some v))) ∧
    ∀ f, ∀ b ∈ m.blocksOf f, ∃ l last, m.insts b = .ok l ∧ m.Strung b l last ∧
      (l.getLast? = some last ↔ last ∈ l ∧ (m.linkOf last).next = none) := by
  refine ⟨fun u v i => ⟨mem_usesOf_of_verify h, fun hnodup => ?_⟩, fun f b hb => ?_⟩
  · rw [← mem_usesOf_of_verify h (u := ⟨u, i⟩)]
    constructor
    · intro hcount
      exact List.count_pos_iff.1 (by omega)
    · intro hmem
      exact List.count_eq_one_of_mem hnodup hmem
  · obtain ⟨l, last, hinsts, hstrung⟩ := strung_of_blockDefect (blockDefect_of_mem_blocksOf h hb)
    exact ⟨l, last, hinsts, hstrung, hstrung.getLast?_eq_some⟩

/-- Calls that build a function of two blocks that returns a square. -/
def squareActions : List Action := [
  .addFunction "f" .i32 [("x", .i32)], .addBlock ⟨0⟩ "entry", .addBlock ⟨0⟩ "exit",
  .build ⟨0⟩ (.binary .mul ⟨0⟩ ⟨0⟩), .build ⟨0⟩ (.br ⟨1⟩), .build ⟨1⟩ (.ret (some ⟨3⟩))]

/-- The module that `squareActions` build. -/
def squareModule : Module := (squareActions.foldlM Action.run {}).toOption.getD {}

/-- The parameter has two uses, each named once. The first block ends where its walk does. -/
theorem verify_guarantees_square :
    squareModule.verify = .ok none ∧ (squareModule.usesOf ⟨0⟩).Nodup ∧
      (squareModule.usesOf ⟨0⟩).count ⟨⟨3⟩, 1⟩ = 1 ∧ ⟨0⟩ ∈ squareModule.blocksOf ⟨0⟩ ∧
      squareModule.insts ⟨0⟩ = .ok [⟨3⟩, ⟨4⟩] ∧ squareModule.Strung ⟨0⟩ [⟨3⟩, ⟨4⟩] ⟨4⟩ := by
  have hverify : squareModule.verify = .ok none := by decide +kernel
  have hnodup : (squareModule.usesOf ⟨0⟩).Nodup := by decide +kernel
  have hblock : ⟨0⟩ ∈ squareModule.blocksOf ⟨0⟩ := by decide +kernel
  have hinsts : squareModule.insts ⟨0⟩ = .ok [⟨3⟩, ⟨4⟩] := by decide +kernel
  obtain ⟨huses, hblocks⟩ := verify_guarantees hverify
  obtain ⟨l, last, hl, hstrung, -⟩ := hblocks ⟨0⟩ ⟨0⟩ hblock
  obtain rfl : [⟨3⟩, ⟨4⟩] = l := Except.ok.inj (hinsts.symm.trans hl)
  obtain rfl : ⟨4⟩ = last := by
    have hends : squareModule.endsOf ⟨0⟩ = (some ⟨3⟩, some ⟨4⟩) := by decide +kernel
    exact Option.some.inj (congrArg Prod.snd (hends.symm.trans hstrung.ends))
  refine ⟨hverify, hnodup, ((huses ⟨3⟩ ⟨0⟩ 1).2 hnodup).2 ?_, hblock, hinsts, hstrung⟩
  decide +kernel

/-- A function that returns its parameter, with the use of the parameter named twice. -/
def doubledModule : Module :=
  (do
    let m ← [Action.addFunction "f" .i32 [("x", .i32)], .addBlock ⟨0⟩ "entry",
      .build ⟨0⟩ (.ret (some ⟨0⟩))].foldlM Action.run {}
    m.modifyValue ⟨0⟩ fun x => { x with uses := x.uses ++ [Use.mk ⟨2⟩ 0] }).toOption.getD {}

/-- A block whose last instruction is a return, with a sum linked behind it. -/
def overrunModule : Module :=
  (do
    let m ← [Action.addFunction "f" .void [], .addBlock ⟨0⟩ "entry", .build ⟨0⟩ (.ret none),
      .addConst (.int 1) .i32, .createInst (.binary .add) .i32 [⟨2⟩, ⟨2⟩] none].foldlM Action.run {}
    let m ← m.modifyValue ⟨1⟩ fun x => { x with link := ⟨some ⟨0⟩, none, some ⟨3⟩⟩ }
    m.modifyValue ⟨3⟩ fun x => { x with link := ⟨some ⟨0⟩, some ⟨1⟩, none⟩ }).toOption.getD {}

/-- A block whose last instruction is a return, but which has no first one. -/
def beheadedModule : Module :=
  (do
    let m ← [Action.addFunction "f" .void [], .addBlock ⟨0⟩ "entry",
      .build ⟨0⟩ (.ret none)].foldlM Action.run {}
    m.modifyBlock ⟨0⟩ fun x => { x with first := none }).toOption.getD {}

/-- The verifier accepts all three modules. In the first a use is named twice; in the others the walk
along the block goes on after its last instruction or does not come to it. -/
theorem verify_misses_corruption :
    (doubledModule.verify = .ok none ∧ (doubledModule.operandsOf ⟨2⟩)[0]? = some ⟨0⟩ ∧
      (doubledModule.usesOf ⟨0⟩).count ⟨⟨2⟩, 0⟩ = 2) ∧
    (overrunModule.verify = .ok none ∧ ⟨0⟩ ∈ overrunModule.blocksOf ⟨0⟩ ∧
      overrunModule.insts ⟨0⟩ = .ok [⟨1⟩, ⟨3⟩] ∧ (overrunModule.endsOf ⟨0⟩).2 = some ⟨1⟩) ∧
    beheadedModule.verify = .ok none ∧ ⟨0⟩ ∈ beheadedModule.blocksOf ⟨0⟩ ∧
      beheadedModule.insts ⟨0⟩ = .ok [] ∧ (beheadedModule.endsOf ⟨0⟩).2 = some ⟨1⟩ := by
  refine ⟨⟨?_, ?_, ?_⟩, ⟨?_, ?_, ?_, ?_⟩, ?_, ?_, ?_, ?_⟩ <;> decide +kernel

end Module

end SsaCodegen
