import Mathlib.Data.List.Perm.Subperm
import Mathlib.Data.List.Nodup
import Mathlib.Logic.Relation
import SsaCodegen.Flow.Graph
import SsaCodegen.Proofs.Semantics.Graph

/-!
# The depth-first order of a graph

A walk meets each node once and leaves it after all that was first met from it. The nodes that a walk
from the entry leaves, the latest first, are the nodes that can be reached, and each of them but the
entry has a predecessor before it. An edge that goes back in this order closes a cycle.

## Main definitions

* `LeadsTo` — a path along successors
* `FlowGraph.Sound` — the edges of a graph stay within it
* `FlowGraph.PathTo`, `Reachable`, `Dominates` — paths from the entry
* `FlowGraph.Swept` — what holds of a depth-first order

## Main results

* `FlowGraph.mem_succ_iff` — the edges of the graph of a function are the successors of its blocks
* `FlowGraph.exists_ofFunc` — a function whose successors are its own blocks has a sound graph
* `FlowGraph.Sound.swept` — the nodes in reverse postorder
* `FlowGraph.Swept.mem_iff` — are those that can be reached
-/

namespace SsaCodegen

/-- A function of which every terminator goes to blocks of the function only. -/
def Module.OwnSuccessors (m : Module) (f : FuncId) : Prop :=
  ∀ b ∈ m.blocksOf f, ∃ succs, m.successors b = .ok succs ∧ ∀ c ∈ succs, c ∈ m.blocksOf f

/-- There is a path from one thing to another, perhaps of no steps, along a table of successors. -/
def LeadsTo {α : Type} (succ : α → List α) : α → α → Prop :=
  Relation.ReflTransGen fun a b => b ∈ succ a

namespace FlowGraph

variable {g : FlowGraph} {i j n : Nat}

/-- Every node has a list of successors, and these are nodes. -/
structure Sound (g : FlowGraph) : Prop where
  size : g.succs.size = g.size
  succ_lt : ∀ {i j}, j ∈ g.succ i → j < g.size

theorem Sound.lt_of_mem_succ (hg : g.Sound) (hj : j ∈ g.succ i) : i < g.size := by
  by_contra hlt
  simp [succ, Array.getElem?_eq_none (Nat.le_of_not_lt (hg.size ▸ hlt))] at hj

theorem Sound.mem_pred_iff (hg : g.Sound) : j ∈ g.pred i ↔ i ∈ g.succ j := by
  rw [mem_pred, hg.size]
  exact ⟨fun hj => hj.2.2, fun hi => ⟨hg.succ_lt hi, hg.lt_of_mem_succ hi, hi⟩⟩

/-- A path from the entry to a node, with the node first. -/
inductive PathTo (g : FlowGraph) : Nat → List Nat → Prop
  | entry (h : 0 < g.size) : PathTo g 0 [0]
  | step {i j path} (h : PathTo g i path) (hj : j ∈ g.succ i) : PathTo g j (j :: path)

/-- There is a path from the entry to a node. -/
def Reachable (g : FlowGraph) (n : Nat) : Prop := ∃ path, g.PathTo n path

/-- Every path from the entry to a node passes through another. -/
def Dominates (g : FlowGraph) (a n : Nat) : Prop := ∀ path, g.PathTo n path → a ∈ path

theorem PathTo.lt (h : g.Sound) {path : List Nat} (hp : g.PathTo n path) : n < g.size := by
  cases hp with
  | entry h0 => exact h0
  | step _ hj => exact h.succ_lt hj

/-! ## The graph of a function -/

theorem exists_mapM {k : α → Except ε β} {l : List α} (h : ∀ a ∈ l, ∃ b, k a = .ok b) :
    ∃ l', l.mapM k = .ok l' := by
  induction l with
  | nil => exact ⟨[], rfl⟩
  | cons a rest ih =>
    obtain ⟨⟨b, hb⟩, hrest⟩ := List.forall_mem_cons.1 h
    obtain ⟨l', hl'⟩ := ih hrest
    refine ⟨b :: l', ?_⟩
    rw [List.mapM_cons, hb, hl']
    rfl

/-- The successors of a node are the first positions of the blocks that its block can go on to. -/
theorem mem_succ_iff {m : Module} {f : FuncId} {b : BlockId} (h : ofFunc m f = .ok g)
    (hb : g.blocks[i]? = some b) :
    j ∈ g.succ i ↔ ∃ c ∈ m.succsOf b, g.blocks.idxOf? c = some j := by
  obtain ⟨y, -, h⟩ := bind_eq_ok.1 h
  obtain ⟨succs, hsuccs, h⟩ := bind_eq_ok.1 h
  cases h
  obtain ⟨l, hl, hk⟩ := forall₂_getElem? (mapM_eq_ok.1 hsuccs) hb
  obtain ⟨cs, hcs, hk⟩ := bind_eq_ok.1 hk
  have hresults := mapM_eq_ok.1 hk
  have hsucc : succ { blocks := y.blocks, succs := succs.toArray } i = l := by simp [succ, hl]
  have hsuccsOf : m.succsOf b = cs := by
    rw [Module.succsOf, hcs]
    rfl
  rw [hsucc, hsuccsOf]
  constructor
  · intro hj
    obtain ⟨c, hc, hcj⟩ := forall₂_exists_of_mem hresults.flip hj
    exact ⟨c, hc, lookupOr_eq_ok.1 hcj⟩
  · rintro ⟨c, hc, hcj⟩
    obtain ⟨j', hj', hcj'⟩ := forall₂_exists_of_mem hresults hc
    cases hcj.symm.trans (lookupOr_eq_ok.1 hcj')
    exact hj'

/-- The edges of the graph of a function stay within it. -/
theorem sound_of_ofFunc {m : Module} {f : FuncId} (h : ofFunc m f = .ok g) :
    g.Sound ∧ g.blocks = m.blocksOf f := by
  have hsucc {i j : Nat} {b : BlockId} := mem_succ_iff (i := i) (j := j) (b := b) h
  obtain ⟨y, hy, h⟩ := bind_eq_ok.1 h
  obtain ⟨succs, hsuccs, h⟩ := bind_eq_ok.1 h
  cases h
  have hlength := (mapM_eq_ok.1 hsuccs).length_eq
  refine ⟨⟨hlength.symm, fun {i j} hj => ?_⟩, (Module.blocksOf_of_func (lookupOr_eq_ok.1 hy)).symm⟩
  cases hb : y.blocks[i]? with
  | none =>
    have hnone : succs[i]? = none := by
      rw [List.getElem?_eq_none_iff] at hb ⊢
      omega
    simp [succ, hnone] at hj
  | some b =>
    obtain ⟨c, -, hc⟩ := (hsucc hb).1 hj
    exact (List.findIdx?_eq_some_iff_findIdx_eq.1 hc).1

/-- A function whose successors are its own blocks has a graph. -/
theorem exists_ofFunc {m : Module} {f : FuncId} (hf : f.idx < m.funcs.size)
    (h : m.OwnSuccessors f) :
    ∃ g, ofFunc m f = .ok g ∧ g.Sound ∧ g.blocks = m.blocksOf f := by
  have hy := Array.getElem?_eq_getElem hf
  generalize m.funcs[f.idx] = y at hy
  have hblocks : m.blocksOf f = y.blocks := Module.blocksOf_of_func hy
  rw [Module.OwnSuccessors, hblocks] at h
  obtain ⟨succs, hsuccs⟩ := exists_mapM (l := y.blocks) (k := fun b => do
      (← m.successors b).mapM fun s => lookupOr .outOfRange (y.blocks.idxOf? s)) fun b hb => by
    obtain ⟨cs, hcs, hown⟩ := h b hb
    obtain ⟨l, hl⟩ := exists_mapM
      (k := fun s => lookupOr Fault.outOfRange (y.blocks.idxOf? s)) fun c hc => by
        obtain ⟨i, hi⟩ := Option.isSome_iff_exists.1 (List.isSome_idxOf?.2 (hown c hc))
        exact ⟨i, lookupOr_eq_ok.2 hi⟩
    exact ⟨l, bind_eq_ok.2 ⟨cs, hcs, hl⟩⟩
  have hofFunc : ofFunc m f = .ok _ :=
    bind_eq_ok.2 ⟨y, lookupOr_eq_ok.2 hy, bind_eq_ok.2 ⟨succs, hsuccs, rfl⟩⟩
  exact ⟨_, hofFunc, sound_of_ofFunc hofFunc⟩

/-- Only a function whose successors are its own blocks has a graph. -/
theorem ownSuccessors_of_ofFunc {m : Module} {f : FuncId} (h : ofFunc m f = .ok g) :
    m.OwnSuccessors f := by
  obtain ⟨y, hy, h⟩ := bind_eq_ok.1 h
  obtain ⟨succs, hsuccs, -⟩ := bind_eq_ok.1 h
  rw [Module.OwnSuccessors, Module.blocksOf_of_func (lookupOr_eq_ok.1 hy)]
  intro b hb
  obtain ⟨l, -, hl⟩ := forall₂_exists_of_mem (mapM_eq_ok.1 hsuccs) hb
  obtain ⟨cs, hcs, hl⟩ := bind_eq_ok.1 hl
  refine ⟨cs, hcs, fun c hc => ?_⟩
  obtain ⟨i, -, hi⟩ := forall₂_exists_of_mem (mapM_eq_ok.1 hl) hc
  exact List.isSome_idxOf?.1 (Option.isSome_of_eq_some (lookupOr_eq_ok.1 hi))

theorem getElem?_of_idxOf? {l : List BlockId} {b : BlockId} (h : l.idxOf? b = some i) :
    l[i]? = some b := by
  obtain ⟨hlt, heq, -⟩ := List.findIdx?_eq_some_iff_getElem.1 h
  rw [List.getElem?_eq_getElem hlt, beq_iff_eq.1 heq]

/-- A node that can be reached is the first position of its block. -/
theorem idxOf?_of_reachable {m : Module} {f : FuncId} {b : BlockId} (hofFunc : ofFunc m f = .ok g)
    (hi : g.Reachable i) (hb : g.blocks[i]? = some b) : g.blocks.idxOf? b = some i := by
  obtain ⟨path, hpath⟩ := hi
  cases hpath with
  | entry _ =>
    cases hblocks : g.blocks with
    | nil => simp [hblocks] at hb
    | cons c rest =>
      rw [hblocks] at hb
      cases hb
      simp [List.idxOf?_cons]
  | @step k _ _ hp hj =>
    have hk := List.getElem?_eq_getElem (hp.lt (sound_of_ofFunc hofFunc).1)
    obtain ⟨c, -, hc⟩ := (mem_succ_iff hofFunc hk).1 hj
    cases (getElem?_of_idxOf? hc).symm.trans hb
    exact hc

/-! ## A walk -/

/-- What a walk from some roots adds to an earlier one: it meets and leaves the same new nodes, among
them the roots that had not been met, with all their successors met. Each of them is a root or has a
predecessor in front of it, and a successor in front of it leads back to it. -/
structure Walked (succ : Nat → List Nat) (roots : List Nat) (w w' : Walk) (new : List Nat) :
    Prop where
  left : w'.left = new ++ w.left
  met : w'.met.Perm (new ++ w.met)
  nodup : w'.met.Nodup
  started : ∀ i ∈ roots, i ∈ w'.met
  closed : ∀ x ∈ new, ∀ y ∈ succ x, y ∈ w'.met
  parent : ∀ {x front back}, new = front ++ x :: back → x ∈ roots ∨ ∃ p ∈ front, x ∈ succ p
  retreat : ∀ {x y front back}, new = front ++ x :: back → y ∈ front → y ∈ succ x → LeadsTo succ y x

variable {succ : Nat → List Nat} {roots : List Nat} {w w₁ w' : Walk} {new : List Nat}

namespace Walked

theorem refl (hw : w.met.Nodup) (hroots : ∀ i ∈ roots, i ∈ w.met) : Walked succ roots w w [] :=
  ⟨rfl, .refl _, hw, hroots, nofun, by simp, by simp⟩

theorem mem (h : Walked succ roots w w' new) {x : Nat} : x ∈ w'.met ↔ x ∈ new ∨ x ∈ w.met := by
  rw [h.met.mem_iff, List.mem_append]

theorem trans {new' roots' : List Nat} (h : Walked succ roots w w₁ new)
    (h' : Walked succ roots' w₁ w' new') : Walked succ (roots ++ roots') w w' (new' ++ new) where
  left := by rw [h'.left, h.left, List.append_assoc]
  met := by
    rw [List.append_assoc]
    exact h'.met.trans (h.met.append_left _)
  nodup := h'.nodup
  started i hi := by
    rcases List.mem_append.1 hi with hi | hi
    · exact h'.mem.2 (.inr (h.started i hi))
    · exact h'.started i hi
  closed x hx y hy := by
    rcases List.mem_append.1 hx with hx | hx
    · exact h'.closed x hx y hy
    · exact h'.mem.2 (.inr (h.closed x hx y hy))
  parent {x front back} heq := by
    rcases List.append_eq_append_iff.1 heq with ⟨l, rfl, hnew⟩ | ⟨l, hnew', hback⟩
    · -- the node was met on the first walk
      rcases h.parent hnew with hx | ⟨p, hp, hx⟩
      · exact .inl (by simp [hx])
      · exact .inr ⟨p, by simp [hp], hx⟩
    · cases l with
      | nil =>
        rcases h.parent (show new = [] ++ x :: back from hback.symm) with hx | ⟨p, hp, -⟩
        · exact .inl (by simp [hx])
        · cases hp
      | cons z l =>
        cases hback
        rcases h'.parent hnew' with hx | hp
        · exact .inl (by simp [hx])
        · exact .inr hp
  retreat {x y front back} heq hy hsucc := by
    -- what was met on the first walk has no successor that only the second one met
    have hnot (hx : x ∈ new) : y ∉ new' := fun hy' =>
      (List.nodup_append.1 (h'.met.nodup_iff.1 h'.nodup)).2.2 y hy' y (h.closed x hx y hsucc) rfl
    rcases List.append_eq_append_iff.1 heq with ⟨l, rfl, hnew⟩ | ⟨l, hnew', hback⟩
    · rcases List.mem_append.1 hy with hy | hy
      · exact absurd hy (hnot (by simp [hnew]))
      · exact h.retreat hnew hy hsucc
    · cases l with
      | nil =>
        rw [List.append_nil] at hnew'
        exact absurd (hnew' ▸ hy) (hnot (by simp [← show x :: back = new from hback]))
      | cons z l =>
        cases hback
        exact h'.retreat hnew' hy hsucc

/-- A root leads to each new node. -/
theorem exists_root (h : Walked succ roots w w' new) {x : Nat} (hx : x ∈ new) :
    ∃ r ∈ roots, LeadsTo succ r x := by
  obtain ⟨front, back, heq⟩ := List.append_of_mem hx
  -- by the position of the node: its predecessor stands in front of it
  induction hk : front.length using Nat.strongRecOn generalizing x front back with
  | _ k ih =>
    rcases h.parent heq with hroot | ⟨p, hp, hsucc⟩
    · exact ⟨x, hroot, .refl⟩
    · obtain ⟨s, t, rfl⟩ := List.append_of_mem hp
      have hpnew : new = s ++ p :: (t ++ x :: back) := by simp [heq]
      obtain ⟨r, hr, hrp⟩ := ih s.length (by simp [← hk]) (by simp [hpnew]) s _ hpnew rfl
      exact ⟨r, hr, hrp.tail hsucc⟩

/-- Leaving the node from whose successors a walk started. -/
theorem leave (h : Walked succ (succ i) { w with met := i :: w.met } w' new) :
    Walked succ [i] w { w' with left := i :: w'.left } (i :: new) where
  left := congrArg (i :: ·) h.left
  met := h.met.trans List.perm_middle
  nodup := h.nodup
  started j hj := by
    rw [List.mem_singleton.1 hj]
    exact h.mem.2 (.inr (by simp))
  closed x hx y hy := by
    rcases List.mem_cons.1 hx with rfl | hx
    · exact h.started y hy
    · exact h.closed x hx y hy
  parent {x front back} heq := by
    cases front with
    | nil =>
      cases heq
      exact .inl (by simp)
    | cons z front =>
      cases heq
      rcases h.parent rfl with hx | ⟨p, hp, hx⟩
      · exact .inr ⟨i, by simp, hx⟩
      · exact .inr ⟨p, by simp [hp], hx⟩
  retreat {x y front back} heq hy hsucc := by
    cases front with
    | nil => cases hy
    | cons z front =>
      cases heq
      rcases List.mem_cons.1 hy with rfl | hy
      · obtain ⟨r, hr, hrx⟩ := h.exists_root (x := x) (by simp)
        exact hrx.head hr
      · exact h.retreat rfl hy hsucc

/-- New nodes are roots or successors. -/
theorem lt (h : Walked succ roots w w' new) (hroots : ∀ i ∈ roots, i < n)
    (hsucc : ∀ {i j}, j ∈ succ i → j < n) {x : Nat} (hx : x ∈ new) : x < n := by
  obtain ⟨front, back, heq⟩ := List.append_of_mem hx
  rcases h.parent heq with hx | ⟨p, -, hx⟩
  · exact hroots x hx
  · exact hsucc hx

end Walked

/-- A list of nodes without repetition that is as long as there are nodes has all of them. -/
theorem mem_of_length_le {l : List Nat} (hl : l.Nodup) (hlt : ∀ x ∈ l, x < n) (hn : n ≤ l.length)
    (hi : i < n) : i ∈ l := by
  by_contra hmem
  have hsub : i :: l ⊆ List.range n := by
    refine List.cons_subset.2 ⟨List.mem_range.2 hi, fun x hx => List.mem_range.2 (hlt x hx)⟩
  have hle := (List.subperm_of_subset (List.nodup_cons.2 ⟨hmem, hl⟩) hsub).length_le
  rw [List.length_cons, List.length_range] at hle
  omega

/-- A walk over all of some nodes, each on paths that are long enough. -/
theorem foldl_walked {depth : Nat}
    (hvisit : ∀ {w : Walk} {i}, i < n → w.met.Nodup → (∀ x ∈ w.met, x < n) →
      n ≤ w.met.length + depth → ∃ new, Walked succ [i] w (visit succ depth w i) new)
    (hsucc : ∀ {i j}, j ∈ succ i → j < n) (hroots : ∀ i ∈ roots, i < n) (hw : w.met.Nodup)
    (hlt : ∀ x ∈ w.met, x < n) (hdepth : n ≤ w.met.length + depth) :
    ∃ new, Walked succ roots w (roots.foldl (visit succ depth) w) new := by
  induction roots generalizing w with
  | nil => exact ⟨[], .refl hw nofun⟩
  | cons i rest ih =>
    obtain ⟨hi, hrest⟩ := List.forall_mem_cons.1 hroots
    obtain ⟨new, hnew⟩ := hvisit hi hw hlt hdepth
    have hlength : (visit succ depth w i).met.length = new.length + w.met.length := by
      rw [hnew.met.length_eq, List.length_append]
    have hlt' : ∀ x ∈ (visit succ depth w i).met, x < n := by
      intro x hx
      rcases hnew.mem.1 hx with hx | hx
      · exact hnew.lt (by simpa using hi) hsucc hx
      · exact hlt x hx
    obtain ⟨new', hnew'⟩ := ih hrest hnew.nodup hlt' (by omega)
    exact ⟨_, hnew.trans hnew'⟩

/-- A walk from a node. A path of nodes that had not been met is no longer than their number. -/
theorem visit_walked (hsucc : ∀ {i j}, j ∈ succ i → j < n) {depth : Nat} (hi : i < n)
    (hw : w.met.Nodup) (hlt : ∀ x ∈ w.met, x < n) (hdepth : n ≤ w.met.length + depth) :
    ∃ new, Walked succ [i] w (visit succ depth w i) new ∧ (i ∉ w.met → new.head? = some i) := by
  induction depth generalizing w i with
  | zero =>
    have hmem := mem_of_length_le hw hlt hdepth hi
    exact ⟨[], .refl hw (by simpa using hmem), fun h => absurd hmem h⟩
  | succ depth ih =>
    rw [visit]
    by_cases hmem : i ∈ w.met
    · rw [if_pos (by simpa using hmem)]
      exact ⟨[], .refl hw (by simpa using hmem), fun h => absurd hmem h⟩
    · rw [if_neg (by simpa using hmem)]
      obtain ⟨new, hnew⟩ := foldl_walked (w := { w with met := i :: w.met })
        (fun hi hw hlt hdepth => (ih hi hw hlt hdepth).imp fun _ h => h.1) hsucc
        (fun j hj => hsucc hj) (List.nodup_cons.2 ⟨hmem, hw⟩) (List.forall_mem_cons.2 ⟨hi, hlt⟩)
        (by simp only [List.length_cons]; omega)
      exact ⟨_, hnew.leave, fun _ => rfl⟩

/-! ## Reverse postorder -/

/-- In an order without repetition, what stands in front of a thing comes before it. -/
theorem idxOf_lt_idxOf {α : Type} [BEq α] [LawfulBEq α] {a b : α} {front back : List α}
    (h : (front ++ b :: back).Nodup) (ha : a ∈ front) :
    (front ++ b :: back).idxOf a < (front ++ b :: back).idxOf b := by
  have hnotin : b ∉ front := fun hmem => (List.nodup_append.1 h).2.2 b hmem b (by simp) rfl
  rw [List.idxOf_append_of_mem ha, List.idxOf_append_of_notMem hnotin]
  simpa using List.idxOf_lt_length_of_mem ha

/-- What holds of the nodes that a walk from the entry leaves, the latest first. -/
structure Swept (g : FlowGraph) (order : List Nat) : Prop where
  nodup : order.Nodup
  entry : order.head? = some 0
  closed : ∀ x ∈ order, ∀ y ∈ g.succ x, y ∈ order
  parent : ∀ {x front back}, order = front ++ x :: back → x = 0 ∨ ∃ p ∈ front, x ∈ g.succ p
  retreat : ∀ {x y front back}, order = front ++ x :: back → y ∈ front → y ∈ g.succ x →
    LeadsTo g.succ y x

theorem Sound.swept (h : g.Sound) (hsize : 0 < g.size) : g.Swept g.rpo := by
  obtain ⟨new, hnew, hhead⟩ := visit_walked (w := {}) h.succ_lt hsize .nil nofun
    (show g.size ≤ 0 + g.size by omega)
  have hrpo : g.rpo = new := by
    rw [rpo, if_neg (by omega), hnew.left]
    exact List.append_nil new
  have hmem {x : Nat} : x ∈ new ↔ x ∈ (visit g.succ g.size {} 0).met := by
    rw [hnew.mem]
    simp
  rw [hrpo]
  refine ⟨?_, hhead (by simp), fun x hx y hy => hmem.2 (hnew.closed x hx y hy), fun heq => ?_,
    hnew.retreat⟩
  · have hperm : (visit g.succ g.size {} 0).met.Perm (new ++ []) := hnew.met
    rw [List.append_nil] at hperm
    exact hperm.nodup_iff.1 hnew.nodup
  · simpa using hnew.parent heq

namespace Swept

variable {order : List Nat}

theorem lt (h : g.Swept order) (hg : g.Sound) (hsize : 0 < g.size) {x : Nat} (hx : x ∈ order) :
    x < g.size := by
  obtain ⟨front, back, heq⟩ := List.append_of_mem hx
  rcases h.parent heq with rfl | ⟨p, -, hp⟩
  · exact hsize
  · exact hg.succ_lt hp

theorem length_le (h : g.Swept order) (hg : g.Sound) (hsize : 0 < g.size) :
    order.length ≤ g.size := by
  have hsub : order ⊆ List.range g.size := fun x hx => List.mem_range.2 (h.lt hg hsize hx)
  simpa using (List.subperm_of_subset h.nodup hsub).length_le

/-- Every node in the order but the entry has a predecessor before it. -/
theorem exists_pred (h : g.Swept order) (hg : g.Sound) {x : Nat} (hx : x ∈ order) (h0 : x ≠ 0) :
    ∃ p ∈ order, p ∈ g.pred x ∧ order.idxOf p < order.idxOf x := by
  obtain ⟨front, back, rfl⟩ := List.append_of_mem hx
  obtain ⟨p, hp, hsucc⟩ := (h.parent rfl).resolve_left h0
  exact ⟨p, by simp [hp], hg.mem_pred_iff.2 hsucc, idxOf_lt_idxOf h.nodup hp⟩

/-- The nodes in the order are those that can be reached. -/
theorem mem_iff (h : g.Swept order) (hg : g.Sound) (hsize : 0 < g.size) {x : Nat} :
    x ∈ order ↔ g.Reachable x := by
  constructor
  · intro hx
    -- by the position of the node: its predecessor stands before it
    induction hk : order.idxOf x using Nat.strongRecOn generalizing x with
    | _ k ih =>
      by_cases h0 : x = 0
      · exact ⟨[0], h0 ▸ .entry hsize⟩
      · obtain ⟨p, hp, hpred, hlt⟩ := h.exists_pred hg hx h0
        obtain ⟨path, hpath⟩ := ih _ (hk ▸ hlt) hp rfl
        exact ⟨_, hpath.step (mem_pred.1 hpred).2.2⟩
  · rintro ⟨path, hpath⟩
    induction hpath with
    | entry _ => exact List.mem_of_head? h.entry
    | step _ hj ih => exact h.closed _ ih _ hj

end Swept

end FlowGraph

end SsaCodegen
