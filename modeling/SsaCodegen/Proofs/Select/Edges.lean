import Mathlib.Data.List.DropRight
import SsaCodegen.Proofs.Select.Operand
import SsaCodegen.Select.Edges

/-!
# Copies on edges, gathered

Each incoming value of a phi becomes one pending copy in the block that does the copies for its edge.
The code that fills the sources of these copies touches scratch registers only, so that it may stand
at the start of a block and the copies at its end.

What gathering does is said of the set of incoming values that were dealt with so far: every copy in
a block is for one of them, and each of them has its copy. That different edges do not get in each
other's way rests on the numbers of edge blocks alone.

## Main definitions

* `Arrival` — an incoming value of a phi
* `Scope.holder?` — the block that does the copies for an edge
* `Scope.Delivers` — code that fills the sources of pending copies
* `Scope.Recorded` — the copies for some incoming values have been gathered

## Main results

* `Scope.recordPhis_ok` — the copies for all phis of a function are gathered
-/

namespace SsaCodegen

open Target SelectM Registers

/-- Instructions put before the exit of a block come after the last one that passes on no control. -/
theorem Target.Block.insertBeforeExit_of_getLast? {B : Target.Block} {code exit : List Inst}
    (h : B.insts = code ++ exit) (hcode : ∀ i ∈ code.getLast?, i.op.isControl = false)
    (hexit : ∀ i ∈ exit, i.op.isControl = true) (new : List Inst) :
    B.insertBeforeExit new = { B with insts := code ++ new ++ exit } := by
  have hlength : exitLength B.insts = exit.length := by
    rw [exitLength, h, List.reverse_append, List.takeWhile_append_of_pos (by simpa using hexit)]
    have hnone : code.reverse.takeWhile (·.op.isControl) = [] := by
      rw [← List.head?_reverse] at hcode
      cases hlist : code.reverse with
      | nil => rfl
      | cons i rest =>
        rw [hlist] at hcode
        exact List.takeWhile_cons_of_neg (by simp [hcode i rfl])
    rw [hnone, List.append_nil, List.length_reverse]
  have hstart : B.exitStart = code.length := by
    rw [exitStart, hlength, h, List.length_append]
    omega
  rw [insertBeforeExit, hstart, h, List.take_left, List.drop_left]

/-- Instructions put before the exit of a block come after all that passes on no control. -/
theorem Target.Block.insertBeforeExit_eq {B : Target.Block} {code exit : List Inst}
    (h : B.insts = code ++ exit) (hcode : Straight code)
    (hexit : ∀ i ∈ exit, i.op.isControl = true) (new : List Inst) :
    B.insertBeforeExit new = { B with insts := code ++ new ++ exit } :=
  insertBeforeExit_of_getLast? h (fun i hi => hcode i (List.mem_of_getLast? hi)) hexit new

/-- After code that passes on no control, instructions put before the exit of a block split the rest
of it before some control transfers. -/
theorem Target.Block.exists_insertBeforeExit {B : Target.Block} {entry code : List Inst}
    (h : B.insts = entry ++ code) (hentry : Straight entry) (new : List Inst) :
    ∃ body exit, code = body ++ exit ∧ (∀ i ∈ exit, i.op.isControl = true) ∧
      (B.insertBeforeExit new).insts = entry ++ (body ++ new ++ exit) := by
  let control : Inst → Bool := fun i => i.op.isControl
  have hsplit : code = code.rdropWhile control ++ code.rtakeWhile control :=
    List.rdropWhile_append_rtakeWhile.symm
  have hexit : ∀ i ∈ code.rtakeWhile control, i.op.isControl = true :=
    fun i hi => List.mem_rtakeWhile_imp (p := control) hi
  refine ⟨_, _, hsplit, hexit, ?_⟩
  have hinsts : B.insts = entry ++ code.rdropWhile control ++ code.rtakeWhile control := by
    rw [h, List.append_assoc, ← hsplit]
  rw [insertBeforeExit_of_getLast? hinsts (fun i hi => ?_) hexit]
  · simp only [List.append_assoc]
  · by_cases hnil : code.rdropWhile control = []
    · rw [hnil, List.append_nil] at hi
      exact hentry i (List.mem_of_getLast? hi)
    · rw [List.getLast?_append, List.getLast?_eq_getLast_of_ne_nil hnil] at hi
      cases hi
      exact Bool.eq_false_iff.2 (List.rdropWhile_last_not control code hnil)

/-- An incoming value of a phi, with the ends of the edge that it comes along. -/
structure Arrival where
  pred : BlockId
  succ : BlockId
  phi : ValueId
  value : ValueId

namespace Module

/-- Whether a block ends in a conditional branch. -/
def branches (m : Module) (b : BlockId) : Bool := (Scope.endsConditionally m b).toOption.getD false

/-- The incoming values of a phi in a block, from a list of values and labels. -/
def arrivalsFrom (m : Module) (b : BlockId) (phi : ValueId) (operands : List ValueId) :
    List Arrival :=
  (m.incomingPairs operands).map fun i => ⟨i.2, b, phi, i.1⟩

/-- The incoming values of phis. -/
def arrivals (m : Module) (phis : List (BlockId × ValueId)) : List Arrival :=
  phis.flatMap fun q => m.arrivalsFrom q.1 q.2 (m.operandsOf q.2)

theorem mem_arrivals {m : Module} {blocks : List BlockId} {e : Arrival} :
    e ∈ m.arrivals (blocks.flatMap fun b => (m.phisOf b).map (b, ·)) ↔
      e.succ ∈ blocks ∧ e.phi ∈ m.phisOf e.succ ∧ (e.value, e.pred) ∈ m.incoming e.phi := by
  simp only [arrivals, arrivalsFrom, List.mem_flatMap, List.mem_map]
  constructor
  · rintro ⟨⟨b, phi⟩, ⟨b', hb', phi', hphi', heq⟩, ⟨value, pred⟩, hin, rfl⟩
    cases heq
    exact ⟨hb', hphi', hin⟩
  · rintro ⟨hsucc, hphi, hin⟩
    exact ⟨(e.succ, e.phi), ⟨e.succ, hsucc, e.phi, hphi, rfl⟩, (e.value, e.pred), hin, rfl⟩

theorem branches_eq {m : Module} {b : BlockId} {r : Bool}
    (h : Scope.endsConditionally m b = .ok r) : m.branches b = r := by
  rw [branches, h]
  rfl

end Module

namespace Scope

variable {sc : Scope} {p : Platform} {s₁ s s' : Registers} {d₁ d d' : Draft}
  {E E' : List Arrival} {n : Nat} {K : Code} {P : List (Copy Reg)}

/-- The incoming values of all phis of the function. -/
def arrivals (sc : Scope) : List Arrival :=
  sc.module.arrivals (sc.blocks.flatMap fun b => (sc.module.phisOf b).map (b, ·))

/-- The block that does the copies for an edge. -/
def holder? (sc : Scope) (d : Draft) (pred succ : BlockId) : Option Nat :=
  if sc.module.branches pred then d.edges.lookup (pred, succ) else sc.blocks.idxOf? pred

/-- Code that fills the sources of the pending copies of a block, each of which is for one of some
incoming values. -/
def Delivers (sc : Scope) (p : Platform) (s₁ s : Registers) (d : Draft) (E : List Arrival) (n : Nat)
    (K : Code) (P : List (Copy Reg)) : Prop :=
  ∀ st, ∃ st', Does p K st st' ∧ Quiet s₁ s st st' ∧ ∀ c ∈ P, s.Has c.src ∧
    ∃ e ∈ E, sc.holder? d e.pred e.succ = some n ∧ s.held.lookup e.phi = some c.dst ∧
      sc.Sourced p s₁ s st' e.value c.src

/-- Starting from a draft without copies, the copies for some incoming values were gathered. -/
structure Recorded (sc : Scope) (p : Platform) (s₁ s : Registers) (d₁ d : Draft)
    (E : List Arrival) : Prop where
  grows : Grows s₁ s
  length : d₁.blocks.length ≤ d.blocks.length
  own : ∀ {n B₁}, d₁.blocks[n]? = some B₁ → ∃ B K, d.blocks[n]? = some B ∧
    B.insts = B₁.insts ++ K ∧ sc.Delivers p s₁ s d E n K B.pending
  edge : ∀ {pred succ n}, d.edges.lookup (pred, succ) = some n → d₁.blocks.length ≤ n ∧
    sc.module.branches pred = true ∧ ∃ B K k, d.blocks[n]? = some B ∧
      B.insts = K ++ [.jump k] ∧ sc.blocks.idxOf? succ = some k ∧
      sc.Delivers p s₁ s d E n K B.pending
  inj : ∀ {e e' n}, d.edges.lookup e = some n → d.edges.lookup e' = some n → e = e'
  covers : ∀ {n}, d₁.blocks.length ≤ n → n < d.blocks.length → ∃ e, d.edges.lookup e = some n
  complete : ∀ e ∈ E, ∃ n B c, sc.holder? d e.pred e.succ = some n ∧ d.blocks[n]? = some B ∧
    c ∈ B.pending ∧ s.held.lookup e.phi = some c.dst

/-! ## Code that fills sources -/

theorem Delivers.nil (sc : Scope) (p : Platform) (s₁ s : Registers) (d : Draft) (E : List Arrival)
    (n : Nat) : sc.Delivers p s₁ s d E n [] [] :=
  fun st => ⟨st, .nil, .refl, nofun⟩

theorem Delivers.straight (h : sc.Delivers p s₁ s d E n K P) : Straight K := by
  obtain ⟨st', hdoes, -⟩ := h ⟨fun _ => 0, ⟨fun _ => 0, []⟩⟩
  exact hdoes.straight

theorem Delivers.mono (h : sc.Delivers p s₁ s d E n K P) (hg : Grows s s') (hE : E ⊆ E')
    (hholder : ∀ e ∈ E, sc.holder? d e.pred e.succ = some n →
      sc.holder? d' e.pred e.succ = some n) :
    sc.Delivers p s₁ s' d' E' n K P := by
  intro st
  obtain ⟨st', hdoes, hquiet, hP⟩ := h st
  refine ⟨st', hdoes, ⟨hquiet.world, fun hq => hquiet.get fun hq' => hq (hq'.grows_right hg)⟩,
    fun c hc => ?_⟩
  obtain ⟨hhas, e, he, hn, hheld, hsourced⟩ := hP c hc
  exact ⟨hg.has hhas, e, hE he, hholder e he hn, hg.lookup hheld, hsourced.mono .refl hg fun _ => rfl⟩

/-- One more copy, with the code that fills its source. -/
theorem Delivers.concat (h : sc.Delivers p s₁ s d E n K P) (hg₁ : Grows s₁ s) (hg : Grows s s')
    {e : Arrival} {dst src : Reg} {code : Code} (hhas : s'.Has src)
    (hcode : ∀ st, ∃ st', Does p code st st' ∧ Quiet s s' st st' ∧
      sc.Sourced p s s' st' e.value src)
    (he : sc.holder? d e.pred e.succ = some n) (hheld : s'.held.lookup e.phi = some dst) :
    sc.Delivers p s₁ s' d (E ++ [e]) n (K ++ code) (P ++ [⟨dst, src⟩]) := by
  intro st
  obtain ⟨st₁, hdoes, hquiet, hP⟩ := h st
  obtain ⟨st', hdoes', hquiet', hsourced⟩ := hcode st₁
  refine ⟨st', hdoes.append hdoes', hquiet.trans hquiet' hg₁ hg, fun c hc => ?_⟩
  rcases List.mem_append.1 hc with hc | hc
  · obtain ⟨hhas, e', he', hn, hheld', hsourced'⟩ := hP c hc
    refine ⟨hg.has hhas, e', List.mem_append_left _ he', hn, hg.lookup hheld', ?_⟩
    exact hsourced'.mono .refl hg fun _ => hquiet'.get hhas.knows.not_scratch
  · obtain rfl := List.mem_singleton.1 hc
    exact ⟨hhas, e, List.mem_append_right _ List.mem_cons_self, he, hheld,
      hsourced.mono hg₁ .refl fun _ => rfl⟩

/-! ## One copy -/

theorem Recorded.start (sc : Scope) (p : Platform) (s₁ : Registers) {blocks : List Target.Block}
    (hpending : ∀ B ∈ blocks, B.pending = []) :
    sc.Recorded p s₁ s₁ { blocks } { blocks } [] where
  grows := .refl
  length := Nat.le_refl _
  own {n B₁} hB := by
    refine ⟨B₁, [], hB, (List.append_nil _).symm, ?_⟩
    rw [hpending B₁ (List.mem_of_getElem? hB)]
    exact .nil sc p s₁ s₁ _ _ n
  edge h := nomatch h
  inj h := nomatch h
  covers hle hlt := absurd hlt (Nat.not_lt_of_le hle)
  complete := nofun

theorem Recorded.mono (h : sc.Recorded p s₁ s d₁ d E) (hg : Grows s s') :
    sc.Recorded p s₁ s' d₁ d E where
  grows := h.grows.trans hg
  length := h.length
  own hB := by
    obtain ⟨B, K, hB, hinsts, hdel⟩ := h.own hB
    exact ⟨B, K, hB, hinsts, hdel.mono hg (List.Subset.refl _) fun _ _ hn => hn⟩
  edge hn := by
    obtain ⟨hle, hbr, B, K, k, hB, hinsts, hk, hdel⟩ := h.edge hn
    exact ⟨hle, hbr, B, K, k, hB, hinsts, hk, hdel.mono hg (List.Subset.refl _) fun _ _ hn => hn⟩
  inj := h.inj
  covers := h.covers
  complete e he := by
    obtain ⟨n, B, c, hn, hB, hc, hheld⟩ := h.complete e he
    exact ⟨n, B, c, hn, hB, hc, hg.lookup hheld⟩

theorem lookup_addEdge {pred succ pred' succ' : BlockId} {base : String} {depth dest : Nat} :
    (d.addEdge (pred, succ) base depth dest).edges.lookup (pred', succ') =
      if (pred', succ') = (pred, succ) then some d.blocks.length
      else d.edges.lookup (pred', succ') := by
  rw [Draft.addEdge, List.lookup_cons]
  by_cases heq : (pred', succ') = (pred, succ)
  · rw [heq]
    simp
  · rw [beq_eq_false_iff_ne.2 heq, if_neg heq]

/-- A block for an edge that had none. -/
theorem Recorded.addEdge (h : sc.Recorded p s₁ s d₁ d E) {pred succ : BlockId}
    (hnone : d.edges.lookup (pred, succ) = none) (hbr : sc.module.branches pred = true)
    {base : String} {depth k : Nat} (hk : sc.blocks.idxOf? succ = some k) :
    sc.Recorded p s₁ s d₁ (d.addEdge (pred, succ) base depth k) E := by
  have hblocks {n : Nat} {B : Target.Block} (hB : d.blocks[n]? = some B) :
      (d.addEdge (pred, succ) base depth k).blocks[n]? = some B := by
    rw [Draft.addEdge, List.getElem?_append_left (List.getElem?_eq_some_iff.1 hB).1, hB]
  have hlookup {pred' succ' : BlockId} {n : Nat} (hn : d.edges.lookup (pred', succ') = some n) :
      (d.addEdge (pred, succ) base depth k).edges.lookup (pred', succ') = some n := by
    rw [lookup_addEdge, if_neg, hn]
    intro heq
    rw [heq, hnone] at hn
    cases hn
  have hholder {n : Nat} {e : Arrival} (hn : sc.holder? d e.pred e.succ = some n) :
      sc.holder? (d.addEdge (pred, succ) base depth k) e.pred e.succ = some n := by
    rw [holder?] at hn ⊢
    split
    · rename_i hbr
      rw [if_pos hbr] at hn
      exact hlookup hn
    · rename_i hbr
      rwa [if_neg hbr] at hn
  -- what is new is a block without copies
  have hnew {n : Nat} {pred' succ' : BlockId}
      (hn : (d.addEdge (pred, succ) base depth k).edges.lookup (pred', succ') = some n) :
      ((pred', succ') = (pred, succ) ∧ n = d.blocks.length) ∨
        d.edges.lookup (pred', succ') = some n := by
    rw [lookup_addEdge] at hn
    split at hn
    · rename_i heq
      exact .inl ⟨heq, (Option.some.inj hn).symm⟩
    · exact .inr hn
  have hlt {n : Nat} {e : BlockId × BlockId} (hn : d.edges.lookup e = some n) :
      n < d.blocks.length := by
    obtain ⟨-, -, B, -, -, hB, -⟩ := h.edge hn
    exact (List.getElem?_eq_some_iff.1 hB).1
  have hlen : (d.addEdge (pred, succ) base depth k).blocks.length = d.blocks.length + 1 :=
    List.length_append
  constructor
  · exact h.grows
  · rw [hlen]
    exact Nat.le_succ_of_le h.length
  · intro n B₁ hB₁
    obtain ⟨B, K, hB, hinsts, hdel⟩ := h.own hB₁
    exact ⟨B, K, hblocks hB, hinsts, hdel.mono .refl (List.Subset.refl _) fun _ _ => hholder⟩
  · intro pred' succ' n hn
    rcases hnew hn with ⟨heq, rfl⟩ | hn
    · cases heq
      exact ⟨h.length, hbr, _, [], k, List.getElem?_concat_length, rfl, hk,
        .nil sc p s₁ s _ E _⟩
    · obtain ⟨hle, hbr, B, K, k, hB, hinsts, hk, hdel⟩ := h.edge hn
      exact ⟨hle, hbr, B, K, k, hblocks hB, hinsts, hk,
        hdel.mono .refl (List.Subset.refl _) fun _ _ => hholder⟩
  · rintro ⟨pred₁, succ₁⟩ ⟨pred₂, succ₂⟩ n hn hn'
    rcases hnew hn with ⟨heq, rfl⟩ | hold
    · rcases hnew hn' with ⟨heq', -⟩ | hold'
      · rw [heq, heq']
      · exact absurd (hlt hold') (Nat.lt_irrefl _)
    · rcases hnew hn' with ⟨-, rfl⟩ | hold'
      · exact absurd (hlt hold) (Nat.lt_irrefl _)
      · exact h.inj hold hold'
  · intro n hle hlt
    rw [hlen] at hlt
    rcases Nat.lt_succ_iff_lt_or_eq.1 hlt with hlt | rfl
    · obtain ⟨e, he⟩ := h.covers hle hlt
      exact ⟨e, hlookup he⟩
    · exact ⟨(pred, succ), by rw [lookup_addEdge, if_pos rfl]⟩
  · intro e he
    obtain ⟨n, B, c, hn, hB, hc, hheld⟩ := h.complete e he
    exact ⟨n, B, c, hholder hn, hblocks hB, hc, hheld⟩

theorem getElem?_addCopy {h : Nat} {copy : Copy Reg} {code : Code} {B : Target.Block}
    (hB : d.blocks[n]? = some B) : (d.addCopy h copy code).blocks[n]? =
      some (if h = n then { B.insertBeforeExit code with pending := B.pending ++ [copy] }
        else B) := by
  rw [Draft.addCopy, Draft.modifyBlock, List.getElem?_modify, hB]
  rfl

/-- A copy for one more incoming value. -/
theorem Recorded.addCopy (h : sc.Recorded p s₁ s d₁ d E)
    (hstraight : ∀ B ∈ d₁.blocks, Straight B.insts) (hlen : sc.blocks.length = d₁.blocks.length)
    (hg : Grows s s') {e : Arrival} {holder : Nat} {dst src : Reg} {code : Code}
    (hhas : s'.Has src) (hcode : ∀ st, ∃ st', Does p code st st' ∧ Quiet s s' st st' ∧
      sc.Sourced p s s' st' e.value src)
    (hholder : sc.holder? d e.pred e.succ = some holder)
    (hheld : s'.held.lookup e.phi = some dst) :
    sc.Recorded p s₁ s' d₁ (d.addCopy holder ⟨dst, src⟩ code) (E ++ [e]) := by
  have hsub : E ⊆ E ++ [e] := List.subset_append_left E [e]
  -- a block that holds copies, with whatever follows them
  have hdeliver {n : Nat} {B : Target.Block} {pre K post : Code} (hB : d.blocks[n]? = some B)
      (hinsts : B.insts = pre ++ K ++ post) (hpre : Straight pre)
      (hpost : ∀ i ∈ post, i.op.isControl = true) (hdel : sc.Delivers p s₁ s d E n K B.pending) :
      ∃ B' K', (d.addCopy holder ⟨dst, src⟩ code).blocks[n]? = some B' ∧
        B'.insts = pre ++ K' ++ post ∧
        sc.Delivers p s₁ s' (d.addCopy holder ⟨dst, src⟩ code) (E ++ [e]) n K' B'.pending := by
    by_cases hn : holder = n
    · subst hn
      refine ⟨_, K ++ code, (getElem?_addCopy hB).trans (congrArg some (if_pos rfl)), ?_, ?_⟩
      · rw [B.insertBeforeExit_eq hinsts (hpre.append hdel.straight) hpost]
        simp only [List.append_assoc]
      · exact hdel.concat h.grows hg hhas hcode hholder hheld
    · exact ⟨B, K, (getElem?_addCopy hB).trans (congrArg some (if_neg hn)), hinsts,
        hdel.mono hg hsub fun _ _ hn => hn⟩
  have hsame : (d.addCopy holder ⟨dst, src⟩ code).blocks.length = d.blocks.length :=
    List.length_modify ..
  constructor
  · exact h.grows.trans hg
  · rw [hsame]
    exact h.length
  · intro n B₁ hB₁
    obtain ⟨B, K, hB, hinsts, hdel⟩ := h.own hB₁
    rw [← List.append_nil (B₁.insts ++ K)] at hinsts
    obtain ⟨B', K', hB', hinsts', hdel'⟩ :=
      hdeliver hB hinsts (hstraight B₁ (List.mem_of_getElem? hB₁)) nofun hdel
    exact ⟨B', K', hB', hinsts'.trans (List.append_nil _), hdel'⟩
  · intro pred succ n hn
    obtain ⟨hle, hbr, B, K, k, hB, hinsts, hk, hdel⟩ := h.edge hn
    rw [← List.nil_append K] at hinsts
    obtain ⟨B', K', hB', hinsts', hdel'⟩ :=
      hdeliver hB hinsts nofun (by simp [Inst.jump, Opcode.isControl]) hdel
    exact ⟨hle, hbr, B', K', k, hB', hinsts', hk, hdel'⟩
  · exact h.inj
  · rw [hsame]
    exact h.covers
  · intro e' he'
    rcases List.mem_append.1 he' with he' | he'
    · obtain ⟨n, B, c, hn, hB, hc, hheld'⟩ := h.complete e' he'
      refine ⟨n, _, c, hn, getElem?_addCopy hB, ?_, hg.lookup hheld'⟩
      split
      · exact List.mem_append_left _ hc
      · exact hc
    · obtain rfl := List.mem_singleton.1 he'
      -- the block is there, be it one of the function or one on an edge
      obtain ⟨B, hB⟩ : ∃ B, d.blocks[holder]? = some B := by
        rw [holder?] at hholder
        split at hholder
        · obtain ⟨-, -, B, -, -, hB, -⟩ := h.edge hholder
          exact ⟨B, hB⟩
        · obtain ⟨hlt, -⟩ := List.idxOf?_eq_some_iff.1 hholder
          rw [hlen] at hlt
          obtain ⟨B, -, hB, -⟩ := h.own (List.getElem?_eq_getElem hlt)
          exact ⟨B, hB⟩
      refine ⟨holder, _, ⟨dst, src⟩, hholder, getElem?_addCopy hB, ?_, hheld⟩
      rw [if_pos rfl]
      exact List.mem_append_right _ List.mem_cons_self

/-! ## All copies -/

/-- The block for an edge is there already or is added. -/
theorem copyHolder_ok {pred succ : BlockId} {holder : Nat}
    (h : sc.copyHolder d pred succ = .ok (holder, d')) (hrec : sc.Recorded p s₁ s d₁ d E) :
    sc.Recorded p s₁ s d₁ d' E ∧ sc.holder? d' pred succ = some holder := by
  obtain ⟨cond, hcond, h⟩ := SsaCodegen.bind_eq_ok.1 h
  have hbr := Module.branches_eq hcond
  cases cond with
  | false =>
    obtain ⟨k, hk, h⟩ := SsaCodegen.bind_eq_ok.1 h
    cases h
    refine ⟨hrec, ?_⟩
    rw [holder?, hbr]
    exact lookupOr_eq_ok.1 hk
  | true =>
    rw [if_pos rfl] at h
    cases hlookup : d.edges.lookup (pred, succ) with
    | some k =>
      rw [hlookup] at h
      cases h
      refine ⟨hrec, ?_⟩
      rw [holder?, if_pos hbr, hlookup]
    | none =>
      rw [hlookup] at h
      obtain ⟨source, -, h⟩ := SsaCodegen.bind_eq_ok.1 h
      obtain ⟨x, -, h⟩ := SsaCodegen.bind_eq_ok.1 h
      obtain ⟨y, -, h⟩ := SsaCodegen.bind_eq_ok.1 h
      obtain ⟨z, -, h⟩ := SsaCodegen.bind_eq_ok.1 h
      obtain ⟨k, hk, h⟩ := SsaCodegen.bind_eq_ok.1 h
      cases h
      refine ⟨hrec.addEdge hlookup hbr (lookupOr_eq_ok.1 hk), ?_⟩
      rw [holder?, if_pos hbr, lookup_addEdge, if_pos rfl]

section Record

variable (ht : sc.target = riscv32) (hstraight : ∀ B ∈ d₁.blocks, Straight B.insts)
  (hlen : sc.blocks.length = d₁.blocks.length)
include ht hstraight hlen

theorem recordIncoming_ok {b : BlockId} {phi : ValueId} {dst : Reg} {operands : List ValueId}
    (hs : s.Wf) (hrec : sc.Recorded p s₁ s d₁ d E) (hdst : s.held.lookup phi = some dst)
    (h : sc.recordIncoming b phi dst d operands s = .ok (d', s')) :
    Grows s s' ∧ sc.Recorded p s₁ s' d₁ d' (E ++ sc.module.arrivalsFrom b phi operands) := by
  fun_induction recordIncoming sc b phi dst d operands generalizing s E with
  | case1 d =>
    obtain ⟨rfl, rfl⟩ := pure_ok.1 h
    refine ⟨.refl, ?_⟩
    rw [Module.arrivalsFrom, Module.incomingPairs, List.map_nil, List.append_nil]
    · exact hrec
    · rintro _ _ _ ⟨⟩
  | case2 => exact absurd h halt_ne_ok
  | case3 d value label rest ih =>
    obtain ⟨kind, hkind, h⟩ := lift_bind_ok.1 h
    have hk := Module.kindOf_of_kind hkind
    cases hpred : kind.asBlock with
    | none =>
      rw [hpred] at h
      exact absurd h halt_ne_ok
    | some pred =>
      rw [hpred] at h
      obtain ⟨⟨holder, d₂⟩, hholder, h⟩ := lift_bind_ok.1 h
      obtain ⟨⟨src, code⟩, s₂, hsrc, h⟩ := bind_ok.1 h
      obtain ⟨hrec, hholder⟩ := copyHolder_ok hholder hrec
      obtain ⟨hg, hhas, hcode⟩ := regOf_sourced (p := p) (congrArg Spec.zero ht) hs hsrc
      have hlabel : sc.module.blockOf? label = some pred := by
        cases kind <;> cases hpred
        exact Module.blockOf?_eq_some.2 hk
      have hrec := hrec.addCopy (e := ⟨pred, b, phi, value⟩) hstraight hlen hg hhas hcode hholder
        (hg.lookup hdst)
      obtain ⟨hg', hrec⟩ := ih holder d₂ src code (hg.wf hs) hrec (hg.lookup hdst) h
      refine ⟨hg.trans hg', ?_⟩
      rw [Module.arrivalsFrom, Module.incomingPairs, hlabel]
      rw [List.append_assoc] at hrec
      exact hrec

theorem recordEach_ok {phis : List (BlockId × ValueId)} (hs : s.Wf)
    (hrec : sc.Recorded p s₁ s d₁ d E) (h : sc.recordEach d phis s = .ok (d', s')) :
    Grows s s' ∧ sc.Recorded p s₁ s' d₁ d' (E ++ sc.module.arrivals phis) := by
  induction phis generalizing d s E with
  | nil =>
    obtain ⟨rfl, rfl⟩ := pure_ok.1 h
    refine ⟨.refl, ?_⟩
    rw [Module.arrivals, List.flatMap_nil, List.append_nil]
    exact hrec
  | cons q rest ih =>
    obtain ⟨b, phi⟩ := q
    obtain ⟨dst, s₂, hdst, h⟩ := bind_ok.1 h
    obtain ⟨hg, hheld⟩ := valueReg_ok hdst
    obtain ⟨operands, hoperands, h⟩ := lift_bind_ok.1 h
    obtain ⟨d₂, s₃, hd₂, h⟩ := bind_ok.1 h
    obtain ⟨hg', hrec⟩ := recordIncoming_ok ht hstraight hlen (hg.wf hs) (hrec.mono hg) hheld hd₂
    obtain ⟨hg'', hrec⟩ := ih ((hg.trans hg').wf hs) hrec h
    refine ⟨(hg.trans hg').trans hg'', ?_⟩
    rw [List.append_assoc] at hrec
    rw [Module.arrivals, List.flatMap_cons, Module.operandsOf_of_operands hoperands]
    exact hrec

omit ht hstraight hlen in
theorem forM_valueReg_ok {phis : List ValueId} {u : Unit}
    (h : (phis.forM fun phi => do let _ ← sc.valueReg phi) s = .ok (u, s')) : Grows s s' := by
  induction phis generalizing s with
  | nil =>
    obtain ⟨-, rfl⟩ := pure_ok.1 h
    exact .refl
  | cons phi rest ih =>
    obtain ⟨u', s₁, hphi, h⟩ := bind_ok.1 h
    obtain ⟨r, s₂, hr, hphi⟩ := bind_ok.1 hphi
    obtain ⟨-, rfl⟩ := pure_ok.1 hphi
    exact (valueReg_ok hr).1.trans (ih h)

omit ht hstraight hlen in
theorem reservePhis_ok {blocks : List BlockId} {phis : List (BlockId × ValueId)}
    (hphis : ∀ b ∈ blocks, phisOf sc.module b = .ok (sc.module.phisOf b))
    (h : sc.reservePhis blocks s = .ok (phis, s')) :
    Grows s s' ∧ phis = blocks.flatMap fun b => (sc.module.phisOf b).map (b, ·) := by
  induction blocks generalizing s phis with
  | nil =>
    obtain ⟨rfl, rfl⟩ := pure_ok.1 h
    exact ⟨.refl, rfl⟩
  | cons b rest ih =>
    obtain ⟨hb, hrest⟩ := List.forall_mem_cons.1 hphis
    obtain ⟨here, hhere, h⟩ := lift_bind_ok.1 h
    obtain rfl := Except.ok.inj (hhere.symm.trans hb)
    obtain ⟨u, s₁, hregs, h⟩ := bind_ok.1 h
    obtain ⟨later, s₂, hlater, h⟩ := bind_ok.1 h
    obtain ⟨rfl, rfl⟩ := pure_ok.1 h
    obtain ⟨hg, rfl⟩ := ih hrest hlater
    exact ⟨(forM_valueReg_ok hregs).trans hg, rfl⟩

end Record

/-- The copies for all phis of a function are gathered. -/
theorem recordPhis_ok {blocks : List Target.Block} (ht : sc.target = riscv32)
    (hstraight : ∀ B ∈ blocks, Straight B.insts) (hpending : ∀ B ∈ blocks, B.pending = [])
    (hlen : sc.blocks.length = blocks.length)
    (hphis : ∀ b ∈ sc.blocks, phisOf sc.module b = .ok (sc.module.phisOf b)) (hs : s.Wf)
    (h : sc.recordPhis { blocks } s = .ok (d, s')) :
    ∃ s₁, Grows s s₁ ∧ sc.Recorded p s₁ s' { blocks } d sc.arrivals := by
  obtain ⟨phis, s₁, hreserve, h⟩ := bind_ok.1 h
  obtain ⟨hg, rfl⟩ := reservePhis_ok hphis hreserve
  obtain ⟨hg', hrec⟩ := recordEach_ok ht hstraight hlen (hg.wf hs)
    (.start sc p s₁ hpending) h
  exact ⟨s₁, hg, hrec⟩

end Scope

end SsaCodegen
