import Mathlib.Data.List.Nodup
import Mathlib.Data.List.Perm.Subperm
import SsaCodegen.Proofs.Module.Built
import SsaCodegen.Proofs.Module.Fields

/-!
# Chains stand for lists

The links between the instructions of a module describe, for each block, a list without
repetitions, and no instruction is on two of them. The operations on chains act on these lists as
their names say: one puts an instruction at the end, one puts it before another, one takes it off.
All of them replace a piece in the middle of a list by another, so there is one lemma for the
links, `Threads.splice`.

## Main definitions

* `Module.Threads` — the links of a module describe the given lists
* `Module.Still` — all chains are left alone

## Main results

* `Module.Threads.append`, `insertBefore`, `unlink` — the operations on lists
* `Module.Built.threads` — every module that was built has its lists
* `Module.Threads.insts` — and walking along a block gives its list
-/

namespace SsaCodegen

/-- An item of a list that is put together from two lists is in the first or in the second. -/
theorem append_eq_append_cons {l s q r : List α} {a : α} (h : l ++ s = q ++ a :: r) :
    (∃ t, l = q ++ a :: t ∧ r = t ++ s) ∨ ∃ t, s = t ++ a :: r ∧ q = l ++ t := by
  rcases List.append_eq_append_iff.1 h with ⟨t, hq, hs⟩ | ⟨t, hl, hr⟩
  · exact .inr ⟨t, hs, hq⟩
  · cases t with
    | nil => exact .inr ⟨[], hr.symm, by simpa using hl.symm⟩
    | cons x t =>
      cases hr
      exact .inl ⟨t, hl, rfl⟩

namespace Module

section Write

variable {m m' : Module} {b c : BlockId} {prev next : Option ValueId} {v w inst : ValueId}

theorem linkOf_setNext (h : m.setNext b prev next = .ok m') :
    m'.linkOf w = if prev = some w then { m.linkOf w with next } else m.linkOf w := by
  cases prev with
  | none => exact congrFun (valueField_modifyBlock h) w
  | some v =>
    rw [linkOf, valueField_modifyValue_of h (g := fun l => { l with next }) fun _ => rfl]
    simp only [Option.some.injEq, eq_comm]

theorem linkOf_setPrev (h : m.setPrev b next prev = .ok m') :
    m'.linkOf w = if next = some w then { m.linkOf w with prev } else m.linkOf w := by
  cases next with
  | none => exact congrFun (valueField_modifyBlock h) w
  | some v =>
    rw [linkOf, valueField_modifyValue_of h (g := fun l => { l with prev }) fun _ => rfl]
    simp only [Option.some.injEq, eq_comm]

theorem endsOf_setNext (h : m.setNext b prev next = .ok m') :
    m'.endsOf c = if c = b ∧ prev = none then (next, (m.endsOf c).2) else m.endsOf c := by
  cases prev with
  | none =>
    rw [endsOf, blockField_modifyBlock_of h (g := fun e => (next, e.2)) fun _ => rfl]
    simp only [and_true]
  | some v =>
    rw [if_neg (by simp)]
    exact congrFun ((SameCode.modifyValue h).blockField) c

theorem endsOf_setPrev (h : m.setPrev b next prev = .ok m') :
    m'.endsOf c = if c = b ∧ next = none then ((m.endsOf c).1, prev) else m.endsOf c := by
  cases next with
  | none =>
    rw [endsOf, blockField_modifyBlock_of h (g := fun e => (e.1, prev)) fun _ => rfl]
    simp only [and_true]
  | some v =>
    rw [if_neg (by simp)]
    exact congrFun ((SameCode.modifyValue h).blockField) c

/-- The ends of a block after writing the links between a part `p` of its list and the part `s`
that is to follow. -/
theorem endsOf_setNext_setPrev {m₁ : Module} {p s : List ValueId}
    (h₁ : m.setNext b p.getLast? next = .ok m₁) (h : m₁.setPrev b s.head? prev = .ok m') :
    m'.endsOf c = if c = b then
      (if p = [] then next else (m.endsOf c).1, if s = [] then prev else (m.endsOf c).2)
      else m.endsOf c := by
  rw [endsOf_setPrev h, endsOf_setNext h₁]
  by_cases hc : c = b
  · cases p <;> cases s <;> simp [hc, List.getLast?_cons]
  · simp [hc]

end Write

/-- The links of a module describe one list of instructions for each block. A block that the
module does not have counts as one without instructions. -/
structure Threads (m : Module) (lists : BlockId → List ValueId) : Prop where
  ends : ∀ b, m.endsOf b = ((lists b).head?, (lists b).getLast?)
  nodup : ∀ b, (lists b).Nodup
  link : ∀ {b : BlockId} {p s : List ValueId} {v : ValueId}, lists b = p ++ v :: s →
    m.linkOf v = ⟨some b, p.getLast?, s.head?⟩
  off : ∀ {v : ValueId}, (∀ b, v ∉ lists b) → m.linkOf v = {}
  inst : ∀ {b : BlockId} {v : ValueId}, v ∈ lists b → ∃ k, m.kindOf v = some (.inst k)

namespace Threads

variable {m m' : Module} {lists : BlockId → List ValueId} {b c : BlockId} {v : ValueId}

theorem block_of_mem (h : Threads m lists) (hv : v ∈ lists b) : (m.linkOf v).block = some b := by
  obtain ⟨p, s, hb⟩ := List.append_of_mem hv
  rw [h.link hb]

/-- No instruction is on two lists. -/
theorem eq_of_mem (h : Threads m lists) (hb : v ∈ lists b) (hc : v ∈ lists c) : b = c :=
  Option.some.inj ((h.block_of_mem hb).symm.trans (h.block_of_mem hc))

theorem mem_of_block (h : Threads m lists) (hv : (m.linkOf v).block = some b) : v ∈ lists b := by
  by_cases hoff : ∀ c, v ∉ lists c
  · rw [h.off hoff] at hv
    cases hv
  · obtain ⟨c, hc⟩ := Classical.not_forall.1 hoff
    have hc := Classical.not_not.1 hc
    rw [h.block_of_mem hc] at hv
    cases hv
    exact hc

/-- A module with the same links has the same lists. -/
theorem congr (h : Threads m lists) (hlink : m'.linkOf = m.linkOf) (hends : m'.endsOf = m.endsOf)
    (hkind : ∀ {v k}, m.kindOf v = some k → m'.kindOf v = some k) : Threads m' lists where
  ends b := by rw [hends, h.ends]
  nodup := h.nodup
  link hb := by rw [hlink, h.link hb]
  off hv := by rw [hlink, h.off hv]
  inst hv := by
    obtain ⟨k, hk⟩ := h.inst hv
    exact ⟨k, hkind hk⟩

/-- What has to be written to replace the piece `old` of a list by `new`: the ends of the block,
the links of the new piece, and the links into it from both sides. -/
structure Splice (m m' : Module) (b : BlockId) (p old new s : List ValueId) : Prop where
  ends : ∀ c, m'.endsOf c =
    if c = b then ((p ++ new ++ s).head?, (p ++ new ++ s).getLast?) else m.endsOf c
  before : ∀ {w}, p.getLast? = some w → m'.linkOf w = { m.linkOf w with next := (new ++ s).head? }
  after : ∀ {w}, s.head? = some w → m'.linkOf w = { m.linkOf w with prev := (p ++ new).getLast? }
  inside : ∀ {q w r}, new = q ++ w :: r → m'.linkOf w = ⟨some b, (p ++ q).getLast?, (r ++ s).head?⟩
  removed : ∀ {w}, w ∈ old → m'.linkOf w = {}
  other : ∀ {w}, w ∉ old → w ∉ new → p.getLast? ≠ some w → s.head? ≠ some w →
    m'.linkOf w = m.linkOf w
  kind : ∀ {v k}, m.kindOf v = some k → m'.kindOf v = some k

/-- The lists after a piece of one of them has been replaced. -/
theorem splice {p old new s : List ValueId} (h : Threads m lists) (hb : lists b = p ++ old ++ s)
    (hs : Splice m m' b p old new s) (hnew : new.Nodup) (hfresh : ∀ w ∈ new, ∀ c, w ∉ lists c)
    (hinst : ∀ w ∈ new, ∃ k, m'.kindOf w = some (.inst k)) :
    Threads m' (Function.update lists b (p ++ new ++ s)) := by
  have hnodup : (p ++ old ++ s).Nodup := hb ▸ h.nodup b
  have hmem {w : ValueId} (hw : w ∈ p ∨ w ∈ s) : w ∈ lists b := by
    rw [hb, List.append_assoc, List.mem_append, List.mem_append]
    exact hw.imp id .inr
  have hold {w : ValueId} (hw : w ∈ p ∨ w ∈ s) : w ∉ old := by grind
  have hdisj {w : ValueId} (hp : w ∈ p) : w ∉ s := by grind
  have hlast {w : ValueId} (hw : w ∈ s) : p.getLast? ≠ some w :=
    fun hl => hdisj (List.mem_of_getLast? hl) hw
  have hhead {w : ValueId} (hw : w ∈ p) : s.head? ≠ some w :=
    fun hl => hdisj hw (List.mem_of_head? hl)
  refine ⟨fun c => ?_, fun c => ?_, fun {c q r v} hc => ?_, fun {v} hv => ?_, fun {c v} hv => ?_⟩
  · rw [hs.ends, h.ends]
    by_cases hc : c = b
    · rw [if_pos hc, hc, Function.update_self]
    · rw [if_neg hc, Function.update_of_ne hc]
  · by_cases hc : c = b
    · rw [hc, Function.update_self]
      grind
    · rw [Function.update_of_ne hc]
      exact h.nodup c
  · by_cases hcb : c = b
    · subst hcb
      rw [Function.update_self] at hc
      -- the item stands before the new piece, in it, or after it
      rcases append_eq_append_cons hc with ⟨t, hpn, rfl⟩ | ⟨a, ha, rfl⟩
      · rcases append_eq_append_cons hpn with ⟨t', rfl, rfl⟩ | ⟨a, ha, rfl⟩
        · have hv := h.link (b := c) (p := q) (v := v) (s := t' ++ old ++ s) (by simp [hb])
          cases t' with
          | nil =>
            rw [hs.before (by simp), hv]
            rfl
          | cons x t' =>
            have hlast : (q ++ v :: x :: t').getLast? ≠ some v := by
              rw [List.getLast?_append, List.getLast?_cons_cons]
              intro hl
              have hmem := List.mem_of_getLast? (l := x :: t') (by simpa [List.getLast?_cons] using hl)
              grind
            rw [hs.other (hold (.inl (by simp))) (fun hn => hfresh v hn c (hmem (.inl (by simp))))
              hlast (hhead (by simp)), hv]
            rfl
        · exact hs.inside ha
      · subst ha
        have hv := h.link (b := c) (p := p ++ old ++ a) (v := v) (s := r) (by simp [hb])
        cases a with
        | nil =>
          rw [hs.after rfl, hv, List.append_nil (p ++ new)]
        | cons x a =>
          rw [hs.other (hold (.inr (by simp))) (fun hn => hfresh v hn c (hmem (.inr (by simp))))
            (hlast (by simp)) (by grind), hv, List.getLast?_append, List.getLast?_append]
          simp [List.getLast?_cons]
    · rw [Function.update_of_ne hcb] at hc
      have hvc : v ∈ lists c := by simp [hc]
      have hvb : v ∉ lists b := fun hvb => hcb (h.eq_of_mem hvc hvb)
      rw [hs.other (by grind) (fun hn => hfresh v hn c hvc)
        (fun hl => hvb (hmem (.inl (List.mem_of_getLast? hl))))
        (fun hl => hvb (hmem (.inr (List.mem_of_head? hl)))), h.link hc]
  · have hvb : v ∉ p ++ new ++ s := Function.update_self b (p ++ new ++ s) lists ▸ hv b
    by_cases ho : v ∈ old
    · exact hs.removed ho
    · rw [hs.other ho (by grind) (fun hl => hvb (by simp [List.mem_of_getLast? hl]))
        (fun hl => hvb (by simp [List.mem_of_head? hl]))]
      refine h.off fun c => ?_
      by_cases hc : c = b
      · rw [hc, hb]
        grind
      · exact Function.update_of_ne hc (p ++ new ++ s) lists ▸ hv c
  · by_cases hc : c = b
    · rw [hc, Function.update_self, List.mem_append, List.mem_append] at hv
      rcases hv with (hv | hv) | hv
      · exact (h.inst (hmem (.inl hv))).imp fun _ => hs.kind
      · exact hinst v hv
      · exact (h.inst (hmem (.inr hv))).imp fun _ => hs.kind
    · rw [Function.update_of_ne hc] at hv
      exact (h.inst hv).imp fun _ => hs.kind

/-- Putting an instruction between two neighbours. -/
theorem linkBetween {p s : List ValueId} {inst : ValueId} (h : Threads m lists)
    (hb : lists b = p ++ s) (hoff : ∀ c, inst ∉ lists c)
    (hinst : ∃ k, m.kindOf inst = some (.inst k))
    (hm : m.linkBetween b inst p.getLast? s.head? = .ok m') :
    Threads m' (Function.update lists b (p ++ inst :: s)) := by
  have hkind {v : ValueId} {k : ValueKind} (hk : m.kindOf v = some k) : m'.kindOf v = some k :=
    (congrFun (valueField_linkBetween (fun _ _ => rfl) hm) v).trans hk
  obtain ⟨m₁, h₁, hm⟩ := bind_eq_ok.1 hm
  obtain ⟨m₂, h₂, hm⟩ := bind_eq_ok.1 hm
  have hlink₁ (w : ValueId) : m₁.linkOf w =
      if w = inst then ⟨some b, p.getLast?, s.head?⟩ else m.linkOf w :=
    valueField_modifyValue_of (p := Value.link) h₁ (g := fun _ => ⟨some b, p.getLast?, s.head?⟩)
      fun _ => rfl
  have hlink (w : ValueId) := linkOf_setPrev (w := w) hm
  simp only [linkOf_setNext h₂, hlink₁] at hlink
  have hp : p.getLast? ≠ some inst :=
    fun hl => hoff b (by simp [hb, List.mem_of_getLast? hl])
  have hs : s.head? ≠ some inst := fun hl => hoff b (by simp [hb, List.mem_of_head? hl])
  have hnodup := hb ▸ h.nodup b
  have hps {w : ValueId} (hw : p.getLast? = some w) : s.head? ≠ some w := fun hl =>
    (List.nodup_append.1 hnodup).2.2 w (List.mem_of_getLast? hw) w (List.mem_of_head? hl) rfl
  have hsplice : Splice m m' b p [] [inst] s := by
    refine ⟨fun c => ?_, fun {w} hw => ?_, fun {w} hw => ?_, fun {q w r} hq => ?_, nofun,
      fun {w} _ hw hpw hsw => ?_, hkind⟩
    · have hends : m₁.endsOf c = m.endsOf c := congrFun ((SameCode.modifyValue h₁).blockField) c
      rw [endsOf_setNext_setPrev h₂ hm, hends, h.ends]
      by_cases hc : c = b
      · rw [if_pos hc, if_pos hc, hc, hb]
        cases p <;> cases s <;> simp [List.getLast?_append, List.getLast?_cons]
      · rw [if_neg hc, if_neg hc]
    · have hne : w ≠ inst := fun hwi => hp (hwi ▸ hw)
      rw [hlink, if_neg (hps hw), if_pos hw, if_neg hne]
      rfl
    · have hne : w ≠ inst := fun hwi => hs (hwi ▸ hw)
      rw [hlink, if_pos hw, if_neg fun hl => hps hl hw, if_neg hne]
      simp
    · obtain ⟨rfl, rfl, rfl⟩ : q = [] ∧ w = inst ∧ r = [] := by
        cases q <;> simp_all
      rw [hlink, if_neg hs, if_neg hp, if_pos rfl, List.append_nil, List.nil_append]
    · rw [hlink, if_neg hsw, if_neg hpw, if_neg (by simpa using hw)]
  have hres := h.splice (by simpa using hb) hsplice (List.nodup_singleton _)
    (by simpa using hoff) (by simpa using hinst.imp fun _ => hkind)
  simpa using hres

/-- Taking an instruction out from between its neighbours. -/
theorem removeBetween {p s : List ValueId} {inst : ValueId} (h : Threads m lists)
    (hb : lists b = p ++ inst :: s)
    (hm : (do
      let m ← m.setNext b p.getLast? s.head?
      let m ← m.setPrev b s.head? p.getLast?
      m.modifyValue inst fun x => { x with link := {} }) = .ok m') :
    Threads m' (Function.update lists b (p ++ s)) := by
  obtain ⟨m₁, h₁, hm⟩ := bind_eq_ok.1 hm
  obtain ⟨m₂, h₂, hm⟩ := bind_eq_ok.1 hm
  have hkind {v : ValueId} {k : ValueKind} (hk : m.kindOf v = some k) : m'.kindOf v = some k := by
    have hm : m'.kindOf = m₂.kindOf := valueField_modifyValue (by exact fun _ => rfl) hm
    have h₂ : m₂.kindOf = m₁.kindOf := valueField_setPrev (fun _ _ => rfl) h₂
    have h₁ : m₁.kindOf = m.kindOf := valueField_setNext (fun _ _ => rfl) h₁
    rw [hm, h₂, h₁, hk]
  have hlink (w : ValueId) : m'.linkOf w = if w = inst then {} else m₂.linkOf w :=
    valueField_modifyValue_of (p := Value.link) hm (g := fun _ => {}) fun _ => rfl
  simp only [linkOf_setPrev h₂, linkOf_setNext h₁] at hlink
  have hnodup := hb ▸ h.nodup b
  have hp {w : ValueId} (hw : p.getLast? = some w) : w ∉ inst :: s := fun hl =>
    (List.nodup_append.1 hnodup).2.2 w (List.mem_of_getLast? hw) w hl rfl
  have hs {w : ValueId} (hw : s.head? = some w) : w ≠ inst := fun hl =>
    (List.nodup_cons.1 (List.nodup_append.1 hnodup).2.1).1 (hl ▸ List.mem_of_head? hw)
  have hsplice : Splice m m' b p [inst] [] s := by
    refine ⟨fun c => ?_, fun {w} hw => ?_, fun {w} hw => ?_, fun {q w r} hq => ?_,
      fun {w} hw => ?_, fun {w} hw _ hpw hsw => ?_, hkind⟩
    · have hends : m'.endsOf c = m₂.endsOf c := congrFun ((SameCode.modifyValue hm).blockField) c
      rw [hends, endsOf_setNext_setPrev h₁ h₂, h.ends]
      by_cases hc : c = b
      · rw [if_pos hc, if_pos hc, hc, hb]
        cases p <;> cases s <;> simp [List.getLast?_append, List.getLast?_cons]
      · rw [if_neg hc, if_neg hc]
    · rw [hlink, if_neg fun hwi : w = inst => hp hw (hwi ▸ List.mem_cons_self),
        if_neg fun hl => hp hw (List.mem_cons_of_mem _ (List.mem_of_head? hl)), if_pos hw]
      rfl
    · rw [hlink, if_neg (hs hw), if_pos hw,
        if_neg fun hl => hp hl (List.mem_cons_of_mem _ (List.mem_of_head? hw)), List.append_nil]
    · cases q <;> cases hq
    · rw [hlink, if_pos (List.mem_singleton.1 hw)]
    · rw [hlink, if_neg (by simpa using hw), if_neg hsw, if_neg hpw]
  have hres := h.splice (by simpa using hb) hsplice List.nodup_nil nofun nofun
  simpa using hres

theorem checkUnlinked {inst : ValueId} {u : Unit} (h : Threads m lists)
    (hc : m.checkUnlinked inst = .ok u) :
    (∀ c, inst ∉ lists c) ∧ ∃ k, m.kindOf inst = some (.inst k) := by
  obtain ⟨x, hx, hc⟩ := bind_eq_ok.1 hc
  have hx := value_eq_ok.1 hx
  split at hc
  · rename_i hcond
    obtain ⟨hk, hblock⟩ := Bool.and_eq_true_iff.1 hcond
    refine ⟨fun c hmem => ?_, ?_⟩
    · have hb := h.block_of_mem hmem
      rw [linkOf, valueField_eq hx] at hb
      rw [hb] at hblock
      cases hblock
    · obtain ⟨k, hk⟩ := Option.isSome_iff_exists.1 hk
      refine ⟨k, kindOf_eq_some.2 ⟨x, hx, ?_⟩⟩
      cases hkind : x.kind <;> rw [hkind] at hk <;> cases hk
      rfl
  · cases hc

theorem append {inst : ValueId} (h : Threads m lists) (hm : m.append b inst = .ok m') :
    (∀ c, inst ∉ lists c) ∧ Threads m' (Function.update lists b (lists b ++ [inst])) := by
  obtain ⟨hoff, hinst⟩ := h.checkUnlinked (bind_eq_ok.1 hm).choose_spec.1
  obtain ⟨-, -, hm⟩ := bind_eq_ok.1 hm
  obtain ⟨x, hx, hm⟩ := bind_eq_ok.1 hm
  have hlast : x.last = (lists b).getLast? := by
    have hends := h.ends b
    rw [endsOf, blockField_eq (blockSlot_eq_ok.1 hx)] at hends
    exact congrArg Prod.snd hends
  rw [hlast] at hm
  exact ⟨hoff, h.linkBetween (s := []) (by simp) hoff hinst hm⟩

theorem insertBefore {anchor inst : ValueId} (h : Threads m lists)
    (hm : m.insertBefore anchor inst = .ok m') :
    ∃ b p s, lists b = p ++ anchor :: s ∧ (∀ c, inst ∉ lists c) ∧
      Threads m' (Function.update lists b (p ++ inst :: anchor :: s)) := by
  obtain ⟨hoff, hinst⟩ := h.checkUnlinked (bind_eq_ok.1 hm).choose_spec.1
  obtain ⟨-, -, hm⟩ := bind_eq_ok.1 hm
  obtain ⟨x, hx, hm⟩ := bind_eq_ok.1 hm
  have hx : m.linkOf anchor = x.link := valueField_eq (valueSlot_eq_ok.1 hx)
  dsimp only at hm
  split at hm
  · cases hm
  · rename_i b hlink
    obtain ⟨p, s, hb⟩ := List.append_of_mem (h.mem_of_block (hx ▸ hlink))
    have hprev := congrArg Link.prev (hx.symm.trans (h.link hb))
    rw [hprev] at hm
    exact ⟨b, p, s, hb, hoff, h.linkBetween (s := anchor :: s) hb hoff hinst hm⟩

theorem unlink {inst : ValueId} (h : Threads m lists) (hm : m.unlink inst = .ok m') :
    Threads m' fun b => (lists b).erase inst := by
  obtain ⟨x, hx, hm⟩ := bind_eq_ok.1 hm
  have hx : m.linkOf inst = x.link := valueField_eq (valueSlot_eq_ok.1 hx)
  dsimp only at hm
  split at hm
  · rename_i hnone
    cases hm
    have hoff (c : BlockId) : inst ∉ lists c := by
      intro hc
      have hb := h.block_of_mem hc
      rw [hx, hnone] at hb
      cases hb
    have herase : (fun b => (lists b).erase inst) = lists := by
      funext c
      exact List.erase_of_not_mem (hoff c)
    rw [herase]
    exact h
  · rename_i b hlink
    obtain ⟨p, s, hb⟩ := List.append_of_mem (h.mem_of_block (hx ▸ hlink))
    have herase : (fun b => (lists b).erase inst) = Function.update lists b (p ++ s) := by
      have hnodup := hb ▸ h.nodup b
      funext c
      by_cases hc : c = b
      · subst hc
        rw [Function.update_self, hb, List.erase_append_right _ (by grind), List.erase_cons_head]
      · rw [Function.update_of_ne hc]
        exact List.erase_of_not_mem fun hmem =>
          hc (h.eq_of_mem hmem (h.mem_of_block (hx ▸ hlink)))
    rw [herase]
    rw [hx.symm.trans (h.link hb)] at hm
    exact h.removeBetween hb hm

end Threads

/-! ## Every module has its lists -/

theorem linkOf_addBlock {m m' : Module} {f : FuncId} {name : String} {b : BlockId}
    (h : m.addBlock f name = .ok (b, m')) : m'.linkOf = m.linkOf := by
  obtain ⟨x, -, -, rfl⟩ := addBlock_eq_ok h
  exact valueField_addValue (m := m.mention .label) _ _ _ rfl

theorem endsOf_addBlock {m m' : Module} {f : FuncId} {name : String} {b : BlockId}
    (h : m.addBlock f name = .ok (b, m')) : m'.endsOf = m.endsOf := by
  obtain ⟨x, -, rfl, rfl⟩ := addBlock_eq_ok h
  funext c
  rw [endsOf, blockField, Array.getElem?_push]
  split
  · rename_i hc
    rw [blockField, hc, Array.getElem?_eq_none (Nat.le_refl _)]
    rfl
  · rfl

/-- All chains are left alone. -/
structure Still (m m' : Module) : Prop where
  link : m'.linkOf = m.linkOf
  ends : m'.endsOf = m.endsOf
  kind : ∀ {v k}, m.kindOf v = some k → m'.kindOf v = some k

namespace Still

variable {m m₁ m' : Module}

theorem refl (m : Module) : Still m m := ⟨rfl, rfl, id⟩

theorem trans (h : Still m m₁) (h' : Still m₁ m') : Still m m' :=
  ⟨h'.link.trans h.link, h'.ends.trans h.ends, fun hk => h'.kind (h.kind hk)⟩

theorem threads {lists : BlockId → List ValueId} (h : Still m m') (ht : Threads m lists) :
    Threads m' lists := ht.congr h.link h.ends h.kind

/-- A step that writes neither links nor ends. -/
theorem of_step (h : Step m m') (hlink : m'.linkOf = m.linkOf) (hends : m'.endsOf = m.endsOf) :
    Still m m' := ⟨hlink, hends, h.kindOf_eq_some⟩

theorem types (m : Module) (t : TypeTable) : Still m { m with types := t } :=
  of_step (.types m t) rfl rfl

theorem addFunction (m : Module) (name : String) (ret : Ty) (params : List (String × Ty)) :
    Still m (m.addFunction name ret params).2 :=
  of_step (.func m name ret params) (valueField_addParams _ _ _ fun _ _ _ _ => rfl)
    (SameCode.addParams _ _ _).blockField

theorem addBlock {f : FuncId} {name : String} {b : BlockId} (h : m.addBlock f name = .ok (b, m')) :
    Still m m' := of_step (.block h) (linkOf_addBlock h) (endsOf_addBlock h)

theorem addGlobal (m : Module) (name : String) (elem : Ty) (init : Option ConstValue) :
    Still m (m.addGlobal name elem init).2 :=
  of_step (.global m name elem init) (valueField_addValue (m := m.mention _) _ _ _ rfl) rfl

theorem addConst (m : Module) (c : ConstValue) (ty : Ty) : Still m (m.addConst c ty).2 :=
  of_step (.const m c ty) (valueField_addValue _ _ _ rfl) rfl

theorem addInst (m : Module) (ty : Ty) (name : Option String) (kind : InstKind) :
    Still m (m.addValue ty name (.inst kind)) :=
  of_step (.inst m ty name kind) (valueField_addValue _ _ _ rfl) rfl

theorem setName {v : ValueId} {name : String} (h : m.setName v name = .ok m') : Still m m' :=
  of_step (.name h) (valueField_modifyValue (by exact fun _ => rfl) h)
    (SameCode.modifyValue h).blockField

theorem addOperand {user value : ValueId} (h : m.addOperand user value = .ok m') : Still m m' :=
  of_step (.operand h) (valueField_addOperand (fun _ _ => rfl) (fun _ _ => rfl) h)
    (SameCode.addOperand h).blockField

theorem replaceOperand {user value : ValueId} {index : Nat} {r : Except GraphError Unit}
    (h : m.replaceOperand user index value = .ok (r, m')) : Still m m' :=
  of_step (.replace h) (valueField_replaceOperand (fun _ _ => rfl) (fun _ _ => rfl) h)
    (SameCode.replaceOperand h).blockField

theorem severOperands {user : ValueId} (h : m.severOperands user = .ok m') : Still m m' :=
  of_step (.sever h) (valueField_severOperands (fun _ _ => rfl) (fun _ _ => rfl) h)
    (SameCode.severOperands h).blockField

theorem setReachable {b : BlockId} {r : Bool} (h : m.setReachable b r = .ok m') : Still m m' :=
  of_step (.reach h) (valueField_modifyBlock h) (blockField_modifyBlock (by exact fun _ => rfl) h)

theorem propagate {v : ValueId} {changed : Bool} (h : m.propagate v = .ok (changed, m')) :
    Still m m' :=
  of_step (.learn h) (valueField_propagate (fun _ _ => rfl) h) (SameCode.propagate h).blockField

end Still

theorem Step.threads {m m' : Module} (hm : Step m m')
    (h : ∃ lists, Threads m lists) : ∃ lists, Threads m' lists := by
  obtain ⟨lists, h⟩ := h
  cases hm with
  | types t => exact ⟨lists, (Still.types m t).threads h⟩
  | func name ret params => exact ⟨lists, (Still.addFunction m name ret params).threads h⟩
  | block hm => exact ⟨lists, (Still.addBlock hm).threads h⟩
  | global name elem init => exact ⟨lists, (Still.addGlobal m name elem init).threads h⟩
  | const c ty => exact ⟨lists, (Still.addConst m c ty).threads h⟩
  | inst ty name kind => exact ⟨lists, (Still.addInst m ty name kind).threads h⟩
  | name hm => exact ⟨lists, (Still.setName hm).threads h⟩
  | operand hm => exact ⟨lists, (Still.addOperand hm).threads h⟩
  | replace hm => exact ⟨lists, (Still.replaceOperand hm).threads h⟩
  | sever hm => exact ⟨lists, (Still.severOperands hm).threads h⟩
  | unlink hm => exact ⟨_, h.unlink hm⟩
  | append hm => exact ⟨_, (h.append hm).2⟩
  | insert hm =>
    obtain ⟨b, p, s, -, -, h⟩ := h.insertBefore hm
    exact ⟨_, h⟩
  | reach hm => exact ⟨lists, (Still.setReachable hm).threads h⟩
  | learn hm => exact ⟨lists, (Still.propagate hm).threads h⟩

theorem Built.threads {m : Module} (h : m.Built) : ∃ lists, Threads m lists := by
  refine h.keep (P := fun m => ∃ lists, Threads m lists) ?_ fun h hm => hm.threads h
  exact ⟨fun _ => [], fun _ => rfl, fun _ => List.nodup_nil, by simp, fun _ => rfl, by simp⟩

/-! ## Walking along a list -/

/-- A list of distinct values of a module is no longer than its table of values. -/
theorem length_le_of_nodup {m : Module} {l : List ValueId} (hl : l.Nodup)
    (hv : ∀ v ∈ l, v.idx < m.values.size) : l.length ≤ m.values.size := by
  have hsub : (l.map ValueId.idx).Subperm (List.range m.values.size) := by
    refine List.subperm_of_subset (hl.map fun _ _ => ValueId.ext) fun i hi => ?_
    obtain ⟨v, hmem, rfl⟩ := List.mem_map.1 hi
    exact List.mem_range.2 (hv v hmem)
  simpa using hsub.length_le

theorem Threads.walk {m : Module} {lists : BlockId → List ValueId} (h : Threads m lists)
    {b : BlockId} {p s : List ValueId} (hb : lists b = p ++ s) {fuel : Nat}
    (hf : s.length ≤ fuel) : m.walk fuel s.head? = ⟨s, .closed⟩ := by
  induction s generalizing p fuel with
  | nil => cases fuel <;> rfl
  | cons v s ih =>
    cases fuel with
    | zero => cases hf
    | succ fuel =>
      obtain ⟨k, hk⟩ := h.inst (b := b) (v := v) (by simp [hb])
      obtain ⟨x, hx, -⟩ := kindOf_eq_some.1 hk
      have hnext : x.link.next = s.head? := by
        have hlink := h.link hb
        rw [linkOf, valueField_eq hx] at hlink
        rw [hlink]
      rw [List.head?_cons, Module.walk, hx]
      simp only [hnext, ih (p := p ++ [v]) (by simp [hb]) (Nat.le_of_succ_le_succ hf)]

theorem Threads.walk_first {m : Module} {lists : BlockId → List ValueId} (h : Threads m lists)
    {b : BlockId} {x : Block} (hx : m.blocks[b.idx]? = some x) {fuel : Nat}
    (hf : m.values.size ≤ fuel) : m.walk fuel x.first = ⟨lists b, .closed⟩ := by
  have hfirst : x.first = (lists b).head? := by
    have hends := h.ends b
    rw [endsOf, blockField_eq hx] at hends
    exact congrArg Prod.fst hends
  have hlen : (lists b).length ≤ m.values.size := by
    refine length_le_of_nodup (h.nodup b) fun v hv => ?_
    obtain ⟨k, hk⟩ := h.inst hv
    exact lt_of_valueField_ne hk nofun
  rw [hfirst]
  exact h.walk (p := []) rfl (Nat.le_trans hlen hf)

theorem Threads.insts {m : Module} {lists : BlockId → List ValueId} (h : Threads m lists)
    {b : BlockId} {x : Block} (hx : m.blocks[b.idx]? = some x) :
    m.insts b = .ok (lists b) := by
  have hchain : m.chain b = .ok ⟨lists b, .closed⟩ :=
    bind_eq_ok.2 ⟨x, block_eq_ok.2 hx, by rw [h.walk_first hx (Nat.le_refl _)]; rfl⟩
  exact bind_eq_ok.2 ⟨_, hchain, rfl⟩

end Module

end SsaCodegen
