import SsaCodegen.Proofs.Module.Replace
import SsaCodegen.Proofs.Semantics.Graph

/-!
# Sequences of instructions

Seen from outside, a module has for each block a sequence of instructions, the one that a walk along
the block gives. The links are a representation of these sequences, `Threads`, and every operation of
the library changes the sequences in the way a caller expects: one puts an instruction at the end of
one of them, one puts it before another instruction, some take instructions off, and the others leave
the sequences alone. What an operation says nothing about stays where it is and in order.

## Main definitions

* `Module.Removes` — what a removal takes off
* `Module.Action.Rearranges` — what an action does to the sequences

## Main results

* `Module.Action.rearranges` — every action does to the sequences what it should
* `Module.Built.refines_sequences` — the links of a module that was built represent its sequences,
  and all actions respect them
-/

namespace SsaCodegen

namespace Module

variable {m m₁ m' : Module} {lists : BlockId → List ValueId} {b : BlockId}
  {inst v anchor old new : ValueId} {r : Except GraphError Unit}

/-! ## The sequences of a module -/

/-- The lists that the links of a module describe are its sequences. -/
theorem Threads.instsOf_eq (h : Threads m lists) : m.instsOf = lists := by
  funext b
  cases hx : m.blocks[b.idx]? with
  | some x => rw [instsOf, h.insts hx]; rfl
  | none =>
    have hends := h.ends b
    rw [endsOf, blockField, hx] at hends
    rw [List.head?_eq_none_iff.1 (congrArg Prod.fst hends).symm]
    refine instsOf_eq_nil ?_
    rw [funcOf, blockField, hx]
    rfl

theorem Built.threads_instsOf (h : m.Built) : Threads m m.instsOf := by
  obtain ⟨lists, hlists⟩ := h.threads
  rw [hlists.instsOf_eq]
  exact hlists

theorem Still.instsOf_eq (h : Still m m') (hm : Threads m m.instsOf) : m'.instsOf = m.instsOf :=
  (h.threads hm).instsOf_eq

/-! ## Operations that leave the sequences alone -/

theorem Still.createInst {kind : InstKind} {ty : Ty} {operands : List ValueId}
    {name : Option String} (h : m.createInst kind ty operands name = .ok (v, m')) :
    Still m m' ∧ m.kindOf v = none := by
  obtain ⟨m₁, h₁, h⟩ := bind_eq_ok.1 h
  cases h
  refine ⟨(Still.addInst m ty name kind).trans
    (foldlM_chain Still.refl Still.trans Still.addOperand h₁), ?_⟩
  have hnone : m.values[m.nextValue.idx]? = none := Array.getElem?_eq_none (Nat.le_refl _)
  rw [kindOf, valueField, hnone]
  rfl

theorem Learns.still (h : Learns m m') : Still m m' := by
  have hskel := h.skeleton_eq
  refine ⟨valueField_of_skeleton hskel fun _ _ => rfl, blockField_of_skeleton hskel fun _ _ => rfl,
    fun hk => ?_⟩
  rw [kindOf_of_skeleton hskel]
  exact hk

theorem Still.prepares {s s' : Builder} (h : Relation.ReflTransGen Builder.Prepares s s') :
    s'.block = s.block ∧ Still s.module s'.module := by
  induction h with
  | refl => exact ⟨rfl, .refl _⟩
  | tail _ hstep ih =>
    obtain ⟨hblock, hstill⟩ := ih
    cases hstep with
    | mention => exact ⟨hblock, hstill.trans (.types _ _)⟩
    | const => exact ⟨hblock, hstill.trans (.addConst _ _ _)⟩
    | operand h => exact ⟨hblock, hstill.trans (.addOperand h)⟩

/-- A method of a builder appends at most one instruction, which is new, to the block where the
builder stands. -/
theorem Threads.build {s s' : Builder} {method : Builder.Method} {u : Unit}
    (ht : Threads s.module lists) (h : method.run s = .ok (u, s')) :
    if method.pushes then ∃ inst, s.module.kindOf inst = none ∧
        Threads s'.module (Function.update lists s.block (lists s.block ++ [inst]))
      else Threads s'.module lists := by
  have hrun := method.cases_run
  cases hpushes : method.pushes with
  | false =>
    rw [hpushes] at hrun
    exact (Still.prepares (hrun s s' u h)).2.threads ht
  | true =>
    rw [hpushes] at hrun
    obtain ⟨s₁, kind, ty, operands, v, hs, hpush⟩ := hrun s s' u h
    obtain ⟨m, hcreate, happend⟩ := Builder.push_eq_ok hpush
    obtain ⟨hblock, hstill⟩ := Still.prepares hs
    obtain ⟨hstill', hnew⟩ := Still.createInst hcreate
    rw [hblock] at happend
    refine ⟨v, ?_, (((hstill.trans hstill').threads ht).append happend).2⟩
    by_contra hold
    obtain ⟨k, hk⟩ := Option.ne_none_iff_exists'.1 hold
    rw [hstill.kind hk] at hnew
    cases hnew

/-! ## Operations that take instructions off -/

theorem Threads.moveToEnd (ht : Threads m lists) (h : m.moveToEnd inst b = .ok m') :
    Threads m' fun c => (lists c).erase inst ++ if c = b then [inst] else [] := by
  obtain ⟨m₁, h₁, h⟩ := bind_eq_ok.1 h
  have hlists : (fun c => (lists c).erase inst ++ if c = b then [inst] else []) =
      Function.update (fun c => (lists c).erase inst) b ((lists b).erase inst ++ [inst]) := by
    funext c
    by_cases hc : c = b
    · subst hc
      simp
    · simp [hc]
  rw [hlists]
  exact ((ht.unlink h₁).append h).2

/-- What a removal takes off. Without users it is refused when the instruction has some, and otherwise
takes off the instruction alone. With users it takes off the transitive users, unless one of them is no
instruction: then it is refused on the way. -/
def Removes (m : Module) (inst : ValueId) (users : Bool) (r : Except GraphError Unit)
    (gone : List ValueId) : Prop :=
  if users then
    (r = .ok () ↔ ∀ v, Relation.ReflTransGen m.UsedBy inst v → m.IsInst v) ∧
    (r = .ok () → ∀ v, Relation.ReflTransGen m.UsedBy inst v → v ∈ gone) ∧
    (m.IsInst inst → inst ∈ gone) ∧ ∀ v ∈ gone, Relation.ReflTransGen m.UsedBy inst v
  else
    (r = .ok () ↔ m.IsInst inst ∧ m.usesOf inst = []) ∧
    ((r = .ok () ∧ gone = [inst]) ∨ (r ≠ .ok () ∧ gone = []))

theorem Threads.removes {operands users : Bool} (ht : Threads m lists) (hm : Mirrored m)
    (h : m.disconnect inst operands users = .ok (r, m')) :
    ∃ gone, m.Removes inst users r gone ∧ Threads m' fun c => (lists c).filter (· ∉ gone) := by
  cases users with
  | true =>
    obtain ⟨gone, severed, hrem, hcas, -, hself⟩ := Removal.disconnectWithin ht hm h
    have hroot : inst ∈ [inst] := List.mem_singleton.2 rfl
    refine ⟨gone, ⟨⟨fun hok v hv => ?_, fun hall => ?_⟩, fun hok v hv => hcas.complete hok hroot hv,
      hself, fun v hv => ?_⟩, hrem.threads⟩
    · exact (hcas.sound (hcas.complete hok hroot hv)).1
    · cases r with
      | ok _ => rfl
      | error e =>
        obtain ⟨u, hu, v, hreach, hv, -⟩ := hcas.refused rfl
        rw [List.mem_singleton.1 hu] at hreach
        exact absurd (hall v hreach) hv
    · obtain ⟨-, u, hu, hreach⟩ := hcas.sound hv
      rwa [List.mem_singleton.1 hu] at hreach
  | false =>
    obtain ⟨depth, hdepth⟩ := m.cascadeDepth_eq_succ
    rw [Module.disconnect, hdepth] at h
    rcases Removal.cases_disconnectWithin ht hm h with
      ⟨rfl, hrefused⟩ | ⟨m₁, hinst, hrem, ⟨-, huses, rfl, rfl⟩ | ⟨htrue, -⟩⟩
    · have hne : r ≠ .ok () := by rcases hrefused with ⟨-, rfl⟩ | ⟨-, -, rfl⟩ <;> rintro ⟨⟩
      have hnot : ¬(m'.IsInst inst ∧ m'.usesOf inst = []) := fun hgoes =>
        hrefused.elim (fun h => h.1 hgoes.1) fun h => h.2.1 hgoes.2
      exact ⟨[], ⟨⟨fun hok => absurd hok hne, fun hgoes => absurd hgoes hnot⟩, .inr ⟨hne, rfl⟩⟩,
        (Removal.refl ht hm).threads⟩
    · exact ⟨[inst], ⟨⟨fun _ => ⟨hinst, huses⟩, fun _ => rfl⟩, .inl ⟨rfl, rfl⟩⟩, hrem.threads⟩
    · cases htrue

/-- A value gives way to another: if this is not refused, it leaves its block. -/
theorem Threads.replacesAllUses (ht : Threads m lists) (hm : Mirrored m)
    (h : m.replaceAllUses old new = .ok (r, m')) :
    Threads m' fun c => if r = .ok () then (lists c).erase old else lists c := by
  rcases ht.cases_replaceAllUses hm h with
    ⟨rfl, -, rfl⟩ | ⟨rfl, -, m₁, hred, ⟨hnot, rfl⟩ | ⟨-, hrem, -⟩⟩
  · exact ht
  · -- what is no instruction is on no list
    have hoff (c : BlockId) : old ∉ lists c := fun hmem => hnot (ht.inst hmem)
    simpa only [if_true, List.erase_of_not_mem (hoff _)] using hred.still.threads ht
  · simpa only [ht.filter_singleton, if_true] using hrem.threads

/-- A step of an operation that does no more than take instructions off. -/
def Thins (m m' : Module) : Prop :=
  Mirrored m → ∀ lists, Threads m lists → Mirrored m' ∧
    ∃ gone : List ValueId, Threads m' fun c => (lists c).filter (· ∉ gone)

theorem Thins.refl (m : Module) : Thins m m :=
  fun hm _ ht => ⟨hm, [], (Removal.refl ht hm).threads⟩

theorem Thins.trans (h : Thins m m₁) (h' : Thins m₁ m') : Thins m m' := by
  intro hm lists ht
  obtain ⟨hm₁, gone, ht₁⟩ := h hm lists ht
  obtain ⟨hm', gone', ht'⟩ := h' hm₁ _ ht₁
  refine ⟨hm', gone ++ gone', ?_⟩
  simpa only [filter_notMem_append] using ht'

theorem foldInst_thins {n : Except GraphError Nat} (h : m.foldInst inst = .ok (n, m')) :
    Thins m m' := by
  intro hm lists ht
  refine ⟨(foldInst_steps h).keep (fun h hs => hs.mirrored h) hm, ?_⟩
  obtain ⟨x, -, h⟩ := bind_eq_ok.1 h
  split at h
  · cases h
    exact ⟨[], (Removal.refl ht hm).threads⟩
  rename_i k _
  split at h
  · obtain ⟨⟨r, m₁⟩, hreplace, h⟩ := bind_eq_ok.1 h
    have ht₁ := (Still.addConst m (.int k) x.ty).threads ht
    have hthreads := ht₁.replacesAllUses (Step.mirrored (.const m _ _) hm) hreplace
    cases r with
    | error e =>
      cases h
      exact ⟨[], by simpa using hthreads⟩
    | ok _ =>
      cases h
      exact ⟨[inst], by simpa only [ht.filter_singleton, if_true] using hthreads⟩
  · cases h
    exact ⟨[], (Removal.refl ht hm).threads⟩

theorem foldConstants_thins {f : FuncId} {n : Except GraphError Nat}
    (h : m.foldConstants f = .ok (n, m')) : Thins m m' := by
  obtain ⟨x, -, h⟩ := bind_eq_ok.1 h
  refine editFold_chain Thins.refl Thins.trans (fun {m m' b n} h => ?_) h
  obtain ⟨x, -, h⟩ := bind_eq_ok.1 h
  split at h
  · obtain ⟨insts, -, h⟩ := bind_eq_ok.1 h
    exact editFold_chain Thins.refl Thins.trans foldInst_thins h
  · cases h
    exact .refl m

/-! ## When an operation succeeds -/

theorem IsInst.lt (h : m.IsInst v) : v.idx < m.values.size := by
  obtain ⟨k, hk⟩ := h
  exact lt_of_kindOf hk

theorem Threads.checkUnlinked_eq (ht : Threads m lists) :
    m.checkUnlinked inst = .ok () ↔ m.IsInst inst ∧ ∀ c, inst ∉ lists c := by
  constructor
  · intro h
    obtain ⟨hoff, hinst⟩ := ht.checkUnlinked h
    exact ⟨hinst, hoff⟩
  · rintro ⟨⟨k, hk⟩, hoff⟩
    obtain ⟨x, hx, hxk⟩ := kindOf_eq_some.1 hk
    have hlink : x.link = {} := by rw [← ht.off hoff, linkOf, valueField_eq hx]
    refine bind_eq_ok.2 ⟨x, value_eq_ok.2 hx, ?_⟩
    rw [hxk, hlink]
    rfl

theorem Threads.exists_linkBetween {p s : List ValueId} (ht : Threads m lists)
    (hb : lists b = p ++ s) (hlt : b.idx < m.blocks.size) (hinst : inst.idx < m.values.size) :
    ∃ m', m.linkBetween b inst p.getLast? s.head? = .ok m' := by
  obtain ⟨m₁, h₁⟩ := exists_modifyValue
    (fun x => { x with link := ⟨some b, p.getLast?, s.head?⟩ }) hinst
  have hbare₁ : m₁.bare = m.bare := bare_modifyValue h₁ fun _ => rfl
  obtain ⟨m₂, h₂⟩ : ∃ m₂, m₁.setNext b p.getLast? (some inst) = .ok m₂ := by
    refine exists_setNext (fun {w} hw => ?_) (by rw [blocks_size_of_bare hbare₁]; exact hlt)
    rw [size_of_bare hbare₁]
    exact ht.lt_of_mem (b := b) (by simp [hb, List.mem_of_getLast? hw])
  have hbare₂ : m₂.bare = m.bare := (bare_setNext h₂).trans hbare₁
  obtain ⟨m', h'⟩ : ∃ m', m₂.setPrev b s.head? (some inst) = .ok m' := by
    refine exists_setPrev (fun {w} hw => ?_) (by rw [blocks_size_of_bare hbare₂]; exact hlt)
    rw [size_of_bare hbare₂]
    exact ht.lt_of_mem (b := b) (by simp [hb, List.mem_of_head? hw])
  exact ⟨m', bind_eq_ok.2 ⟨m₁, h₁, bind_eq_ok.2 ⟨m₂, h₂, h'⟩⟩⟩

theorem Threads.exists_append (ht : Threads m lists) :
    (∃ m', m.append b inst = .ok m') ↔
      b.idx < m.blocks.size ∧ m.IsInst inst ∧ ∀ c, inst ∉ lists c := by
  constructor
  · rintro ⟨m', h⟩
    obtain ⟨u, hcheck, h⟩ := bind_eq_ok.1 h
    obtain ⟨x, hx, -⟩ := bind_eq_ok.1 h
    exact ⟨(Array.getElem?_eq_some_iff.1 (blockSlot_eq_ok.1 hx)).1, ht.checkUnlinked_eq.1 hcheck⟩
  · rintro ⟨hlt, hfree⟩
    obtain ⟨m', h⟩ := ht.exists_linkBetween (p := lists b) (s := []) (by simp) hlt hfree.1.lt
    have hx := Array.getElem?_eq_getElem hlt
    have hlast : (m.blocks[b.idx]).last = (lists b).getLast? := by
      have hends := ht.ends b
      rw [endsOf, blockField_eq hx] at hends
      exact congrArg Prod.snd hends
    refine ⟨m', bind_eq_ok.2 ⟨(), ht.checkUnlinked_eq.2 hfree,
      bind_eq_ok.2 ⟨_, blockSlot_eq_ok.2 hx, ?_⟩⟩⟩
    rw [hlast]
    exact h

theorem Threads.exists_insertBefore (ht : Threads m lists) :
    (∃ m', m.insertBefore anchor inst = .ok m') ↔
      (∃ b, anchor ∈ lists b) ∧ m.IsInst inst ∧ ∀ c, inst ∉ lists c := by
  constructor
  · rintro ⟨m', h⟩
    obtain ⟨b, p, s, hb, -⟩ := ht.insertBefore h
    obtain ⟨u, hcheck, h⟩ := bind_eq_ok.1 h
    exact ⟨⟨b, by simp [hb]⟩, ht.checkUnlinked_eq.1 hcheck⟩
  · rintro ⟨⟨b, hmem⟩, hfree⟩
    obtain ⟨p, s, hb⟩ := List.append_of_mem hmem
    obtain ⟨m', h⟩ := ht.exists_linkBetween hb (ht.block_lt_of_mem hmem) hfree.1.lt
    have hlt := ht.lt_of_mem hmem
    have hx := Array.getElem?_eq_getElem hlt
    have hlink : (m.values[anchor.idx]).link = ⟨some b, p.getLast?, s.head?⟩ := by
      rw [← ht.link hb, linkOf, valueField_eq hx]
    refine ⟨m', bind_eq_ok.2 ⟨(), ht.checkUnlinked_eq.2 hfree,
      bind_eq_ok.2 ⟨_, valueSlot_eq_ok.2 hx, ?_⟩⟩⟩
    rw [hlink]
    exact h

theorem Threads.exists_moveToEnd (ht : Threads m lists) :
    (∃ m', m.moveToEnd inst b = .ok m') ↔ b.idx < m.blocks.size ∧ m.IsInst inst := by
  have hafter {m₁ : Module} (h₁ : m.unlink inst = .ok m₁) : (∃ m', m₁.append b inst = .ok m') ↔
      b.idx < m.blocks.size ∧ m.IsInst inst := by
    rw [(ht.unlink h₁).exists_append, blocks_size_of_bare (bare_unlink h₁), IsInst,
      kindOf_of_bare (bare_unlink h₁)]
    refine and_congr_right fun _ => ⟨fun h => h.1, fun h => ⟨h, fun c hmem => ?_⟩⟩
    exact (ht.nodup c).not_mem_erase hmem
  constructor
  · rintro ⟨m', h⟩
    obtain ⟨m₁, h₁, h⟩ := bind_eq_ok.1 h
    exact (hafter h₁).1 ⟨m', h⟩
  · rintro ⟨hlt, hinst⟩
    obtain ⟨m₁, h₁⟩ := ht.exists_unlink_of_lt hinst.lt
    obtain ⟨m', h⟩ := (hafter h₁).2 ⟨hlt, hinst⟩
    exact ⟨m', bind_eq_ok.2 ⟨m₁, h₁, h⟩⟩

theorem Threads.exists_disconnect {operands users : Bool} (ht : Threads m lists)
    (hm : Mirrored m) :
    (∃ r m', m.disconnect inst operands users = .ok (r, m')) ↔ inst.idx < m.values.size := by
  refine ⟨?_, fun hlt => Removal.exists_disconnect ht hm hlt operands users⟩
  rintro ⟨r, m', h⟩
  obtain ⟨depth, hdepth⟩ := m.cascadeDepth_eq_succ
  rw [Module.disconnect, hdepth] at h
  obtain ⟨k, hk, -⟩ := bind_eq_ok.1 h
  obtain ⟨kind, hkind, -⟩ := bind_eq_ok.1 hk
  exact lt_of_kindOf (kindOf_of_kind hkind)

/-! ## All actions -/

/-- What an action does to the sequences of a module. -/
def Action.Rearranges (m m' : Module) : Action → Prop
  | .append b inst => m'.instsOf = Function.update m.instsOf b (m.instsOf b ++ [inst])
  | .insertBefore anchor inst => ∃ b before after, m.instsOf b = before ++ anchor :: after ∧
      m'.instsOf = Function.update m.instsOf b (before ++ inst :: anchor :: after)
  | .moveToEnd inst b =>
      m'.instsOf = fun c => (m.instsOf c).erase inst ++ if c = b then [inst] else []
  | .disconnect inst operands users => ∃ r gone, m.disconnect inst operands users = .ok (r, m') ∧
      m.Removes inst users r gone ∧ m'.instsOf = fun c => (m.instsOf c).filter (· ∉ gone)
  | .replaceAllUses old new => ∃ r, m.replaceAllUses old new = .ok (r, m') ∧
      m'.instsOf = fun c => if r = .ok () then (m.instsOf c).erase old else m.instsOf c
  | .foldConstants _ =>
      ∃ gone : List ValueId, m'.instsOf = fun c => (m.instsOf c).filter (· ∉ gone)
  | .build b method =>
      if method.pushes then ∃ inst, m.kindOf inst = none ∧
        m'.instsOf = Function.update m.instsOf b (m.instsOf b ++ [inst])
      else m'.instsOf = m.instsOf
  | _ => m'.instsOf = m.instsOf

theorem Action.rearranges {a : Action} (hbuilt : m.Built) (h : a.run m = .ok m') :
    a.Rearranges m m' := by
  have ht := hbuilt.threads_instsOf
  have hm := hbuilt.mirrored
  cases a with
  | mention ty =>
    cases h
    exact (Still.types m _).instsOf_eq ht
  | declareClass name fields =>
    obtain ⟨t, -, h⟩ := bind_eq_ok.1 h
    cases h
    exact (Still.types m _).instsOf_eq ht
  | addFunction name ret params =>
    cases h
    exact (Still.addFunction m name ret params).instsOf_eq ht
  | addBlock f name =>
    obtain ⟨⟨b, m₁⟩, h₁, h⟩ := bind_eq_ok.1 h
    cases h
    exact (Still.addBlock h₁).instsOf_eq ht
  | addGlobal name elem init =>
    cases h
    exact (Still.addGlobal m name elem init).instsOf_eq ht
  | addConst c ty =>
    cases h
    exact (Still.addConst m c ty).instsOf_eq ht
  | setName v name => exact (Still.setName h).instsOf_eq ht
  | createInst kind ty operands name =>
    obtain ⟨⟨v, m₁⟩, h₁, h⟩ := bind_eq_ok.1 h
    cases h
    exact (Still.createInst h₁).1.instsOf_eq ht
  | addOperand user value => exact (Still.addOperand h).instsOf_eq ht
  | replaceOperand user index value =>
    obtain ⟨⟨r, m₁⟩, h₁, h⟩ := bind_eq_ok.1 h
    cases h
    exact (Still.replaceOperand h₁).instsOf_eq ht
  | setReachable b reachable => exact (Still.setReachable h).instsOf_eq ht
  | resetReachability f => exact (resetReachability_learns h).still.instsOf_eq ht
  | propagate v =>
    obtain ⟨⟨c, m₁⟩, h₁, h⟩ := bind_eq_ok.1 h
    cases h
    exact (Still.propagate h₁).instsOf_eq ht
  | solve f =>
    obtain ⟨⟨n, m₁⟩, h₁, h⟩ := bind_eq_ok.1 h
    cases h
    exact (solve_learns h₁).still.instsOf_eq ht
  | append b inst => exact (ht.append h).2.instsOf_eq
  | insertBefore anchor inst =>
    obtain ⟨b, before, after, hb, -, h⟩ := ht.insertBefore h
    exact ⟨b, before, after, hb, h.instsOf_eq⟩
  | moveToEnd inst b => exact (ht.moveToEnd h).instsOf_eq
  | disconnect inst operands users =>
    obtain ⟨⟨r, m₁⟩, h₁, h⟩ := bind_eq_ok.1 h
    cases h
    obtain ⟨gone, hgone, hthreads⟩ := ht.removes hm h₁
    exact ⟨r, gone, h₁, hgone, hthreads.instsOf_eq⟩
  | replaceAllUses old new =>
    obtain ⟨⟨r, m₁⟩, h₁, h⟩ := bind_eq_ok.1 h
    cases h
    exact ⟨r, h₁, (ht.replacesAllUses hm h₁).instsOf_eq⟩
  | foldConstants f =>
    obtain ⟨⟨r, m₁⟩, h₁, h⟩ := bind_eq_ok.1 h
    cases h
    obtain ⟨-, gone, hthreads⟩ := foldConstants_thins h₁ hm _ ht
    exact ⟨gone, hthreads.instsOf_eq⟩
  | build b method =>
    obtain ⟨⟨u, s⟩, h₁, h⟩ := bind_eq_ok.1 h
    cases h
    have hbuild := Threads.build (s := ⟨m, b⟩) ht h₁
    rw [Rearranges]
    cases hpushes : method.pushes with
    | false =>
      rw [hpushes] at hbuild
      exact Threads.instsOf_eq hbuild
    | true =>
      rw [hpushes] at hbuild
      obtain ⟨inst, hnew, hthreads⟩ := hbuild
      exact ⟨inst, hnew, hthreads.instsOf_eq⟩

/-- The links of a module that was built represent its sequences of instructions: a walk along a block
ends with them, they have no repetitions and nothing in common, the ends of blocks and the links of
instructions say what they do, and an instruction outside them has no links. Appending, inserting,
moving and removing succeed just when their arguments make sense, and every action changes the
sequences as it should. -/
theorem Built.refines_sequences (h : m.Built) :
    (∀ b, b.idx < m.blocks.size → m.insts b = .ok (m.instsOf b)) ∧ Threads m m.instsOf ∧
      (∀ v b c, v ∈ m.instsOf b → v ∈ m.instsOf c → b = c) ∧
      (∀ b inst, (∃ m', m.append b inst = .ok m') ↔
        b.idx < m.blocks.size ∧ m.IsInst inst ∧ ∀ c, inst ∉ m.instsOf c) ∧
      (∀ anchor inst, (∃ m', m.insertBefore anchor inst = .ok m') ↔
        (∃ b, anchor ∈ m.instsOf b) ∧ m.IsInst inst ∧ ∀ c, inst ∉ m.instsOf c) ∧
      (∀ inst b, (∃ m', m.moveToEnd inst b = .ok m') ↔ b.idx < m.blocks.size ∧ m.IsInst inst) ∧
      (∀ inst operands users, (∃ r m', m.disconnect inst operands users = .ok (r, m')) ↔
        inst.idx < m.values.size) ∧
      ∀ (a : Action) (m' : Module), a.run m = .ok m' → a.Rearranges m m' := by
  have ht := h.threads_instsOf
  refine ⟨fun b hb => ht.insts (Array.getElem?_eq_getElem hb), ht, fun _ _ _ => ht.eq_of_mem,
    fun _ _ => ht.exists_append, fun _ _ => ht.exists_insertBefore, fun _ _ => ht.exists_moveToEnd,
    fun _ _ _ => ht.exists_disconnect h.mirrored, fun _ _ => Action.rearranges h⟩

/-- A loop in one block: the phi and the sum use each other. -/
def knitActions : List Action := [
  .addFunction "f" .i32 [("n", .i32)], .addBlock ⟨0⟩ "entry", .addBlock ⟨0⟩ "loop",
  .build ⟨0⟩ (.br ⟨1⟩), .build ⟨1⟩ (.phi .i32), .build ⟨1⟩ (.binary .add ⟨4⟩ ⟨0⟩),
  .build ⟨1⟩ (.binary .mul ⟨0⟩ ⟨0⟩), .build ⟨1⟩ (.ret (some ⟨5⟩)),
  .build ⟨1⟩ (.addIncoming ⟨4⟩ ⟨0⟩ ⟨0⟩), .build ⟨1⟩ (.addIncoming ⟨4⟩ ⟨5⟩ ⟨1⟩)]

/-- The module that `knitActions` build. -/
def knitModule : Module := (knitActions.foldlM Action.run {}).toOption.getD {}

/-- The phi can be moved to the end of its own block, and the sum is removed with all that uses it:
the phi, and the return. -/
theorem Built.refines_sequences_knit :
    knitModule.Built ∧ knitModule.instsOf ⟨1⟩ = [⟨4⟩, ⟨5⟩, ⟨6⟩, ⟨7⟩] ∧
      (∃ m', knitModule.moveToEnd ⟨4⟩ ⟨1⟩ = .ok m' ∧ m'.instsOf ⟨1⟩ = [⟨5⟩, ⟨6⟩, ⟨7⟩, ⟨4⟩]) ∧
      ∃ m', knitModule.disconnect ⟨5⟩ false true = .ok (.ok (), m') ∧ m'.instsOf ⟨0⟩ = [⟨3⟩] ∧
        m'.instsOf ⟨1⟩ = [⟨6⟩] := by
  have hbuilt : knitModule.Built := ⟨knitActions, rfl⟩
  have hentry : knitModule.instsOf ⟨0⟩ = [⟨3⟩] := by decide +kernel
  have hloop : knitModule.instsOf ⟨1⟩ = [⟨4⟩, ⟨5⟩, ⟨6⟩, ⟨7⟩] := by decide +kernel
  obtain ⟨-, -, -, -, -, hmove, hdisconnect, hrearranges⟩ := Built.refines_sequences hbuilt
  refine ⟨hbuilt, hloop, ?_, ?_⟩
  · obtain ⟨m', h⟩ := (hmove ⟨4⟩ ⟨1⟩).2 ⟨by decide, .phi, by decide +kernel⟩
    refine ⟨m', h, ?_⟩
    have hinsts : m'.instsOf = _ := hrearranges (.moveToEnd ⟨4⟩ ⟨1⟩) m' h
    simp only [hinsts, hloop]
    decide
  · obtain ⟨r, m', h⟩ := (hdisconnect ⟨5⟩ false true).2 (by decide)
    obtain ⟨r', gone, h', ⟨hok, hall, -, hgone⟩, hinsts⟩ :=
      hrearranges (.disconnect ⟨5⟩ false true) m' (bind_eq_ok.2 ⟨_, h, rfl⟩)
    cases h.symm.trans h'
    -- nothing else uses the three
    have hclosed : ∀ v, Relation.ReflTransGen knitModule.UsedBy ⟨5⟩ v →
        v ∈ [(⟨5⟩ : ValueId), ⟨4⟩, ⟨7⟩] := by
      intro v hreach
      induction hreach with
      | refl => decide
      | @tail x y _ huse ih =>
        have hlt : y.idx < 8 := lt_of_mem_operandsOf huse
        have hstep : ∀ i < 8, ∀ x ∈ [(⟨5⟩ : ValueId), ⟨4⟩, ⟨7⟩],
            x ∈ knitModule.operandsOf ⟨i⟩ → (⟨i⟩ : ValueId) ∈ [(⟨5⟩ : ValueId), ⟨4⟩, ⟨7⟩] := by
          decide +kernel
        exact hstep y.idx hlt x ih huse
    have hphi : knitModule.UsedBy ⟨5⟩ ⟨4⟩ := by
      rw [UsedBy]
      decide +kernel
    have hret : knitModule.UsedBy ⟨5⟩ ⟨7⟩ := by
      rw [UsedBy]
      decide +kernel
    have hinst : ∀ v ∈ [(⟨5⟩ : ValueId), ⟨4⟩, ⟨7⟩], knitModule.IsInst v := by
      simp only [List.forall_mem_cons]
      exact ⟨⟨.binary .add, by decide +kernel⟩, ⟨.phi, by decide +kernel⟩,
        ⟨.ret, by decide +kernel⟩, nofun⟩
    have hok := hok.2 fun v hreach => hinst v (hclosed v hreach)
    subst hok
    have hmem (v : ValueId) : v ∈ gone ↔ v ∈ [(⟨5⟩ : ValueId), ⟨4⟩, ⟨7⟩] := by
      refine ⟨fun hv => hclosed v (hgone v hv), fun hv => hall rfl v ?_⟩
      simp only [List.mem_cons, List.not_mem_nil, or_false] at hv
      rcases hv with rfl | rfl | rfl
      · exact .refl
      · exact .single hphi
      · exact .single hret
    refine ⟨m', h, ?_, ?_⟩
    · simp only [hinsts, hentry, hmem]
      decide
    · simp only [hinsts, hloop, hmem]
      decide

end Module

end SsaCodegen
