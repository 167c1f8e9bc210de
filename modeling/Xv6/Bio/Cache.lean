import Xv6.Bio.Host

/-!
# Every run of the buffer cache

The processes use the cache in any order, properly paired.  The list stays a
circle of all buffers, a buffer in use stands for its block, and `bread`
returns what was last written to a block.
-/

namespace Xv6.Bio

open Conc Conc.Logic
open Function (update)

variable {D : Type} {s s' : State D} {p : Slot}

/-- The list is a circle of the head and each buffer once; different buffers
stand for different blocks; and the buffers that are locked, waited for or
pinned are those with a count. -/
structure Consistent (s : State D) : Prop where
  circle : ∃ l : List Buf, Links.Circle s.next s.prev none (l.map some) ∧ l.Nodup ∧ ∀ b, b ∈ l
  unique : ∀ b c, s.dev b ≠ 0 → s.key b = s.key c → b = c
  used : ∀ b, s.refcnt b ≠ 0 ↔ s.lock b ≠ none ∨ (∃ p, s.transit p = some b) ∨ s.pins b ≠ 0

theorem Inv.consistent (h : Inv s) : Consistent s where
  circle := by
    obtain ⟨l, hl⟩ := h.list
    exact ⟨l, hl.circle, hl.nodup, hl.all⟩
  unique := h.unique
  used _ := h.refcnt_ne_zero

structure Guar (p : Slot) (s s' : State D) : Prop where
  inv : Inv s → Inv s'
  others : Others p s s'

abbrev logic (D : Type) : Logic (machine D) :=
  ofGuarantee (machine D) Inv Machine.always (Safe False) Guar fun _ _ _ hinv hg => hg.inv hinv

theorem Keeps.stable {P : State D → Prop} (h : Keeps p P) : (logic D).Stable p P :=
  stable_of_guarantee (fun _ _ => rfl) fun u s s' hu hinv hg hs =>
    h u s s' (Ne.symm hu) hinv hg.others hs

theorem host : Host False (fun _ => True) (logic D) Prog.perform (fun s => s) p
    fun _ => True := by
  intro β o P Q _ hP hsafe hspec
  refine Triple.act (fun _ _ => rfl) (Stable.and (logic D) hP.stable fun _ _ _ h => h)
    (fun s hs hinv _ => hsafe s hs.1 hinv) fun s i b s' hs hinv _ hx => ?_
  have havail : Avail False β p o s := by
    cases o with
    | bget dev blockno => exact fun h => h.elim
    | _ => trivial
  obtain ⟨hinv', hothers, hq⟩ := hspec s i b s' hs.1 hinv havail hx
  exact ⟨⟨fun _ => hinv', hothers⟩, hq, trivial⟩

/-- Between two calls. -/
def Ready (p : Slot) (s : State D) : Prop := Calm p none none [] s ∧ True

theorem next_rule :
    (logic D).Triple p (Ready p) (.perform .next) fun c s => Ready p s ∧ c.Proper p s := by
  refine Triple.act (fun _ _ => rfl) (Stable.and (logic D) Calm.keeps.stable fun _ _ _ h => h)
    (fun _ _ _ _ => trivial) fun s i c s' hs hinv _ hx => ?_
  have hx : (if i.Proper p s then some (i, s) else none) = some (c, s') := hx
  by_cases hproper : i.Proper p s
  · rw [if_pos hproper] at hx
    obtain ⟨rfl, rfl⟩ := Prod.mk.inj (Option.some.inj hx)
    exact ⟨⟨fun h => h, .refl p s⟩, hs, hproper⟩
  · rw [if_neg hproper] at hx
    cases hx

theorem main_rule : (logic D).Triple p (Ready p) main fun _ _ => False := by
  refine Triple.forever (Stable.and (logic D) Calm.keeps.stable fun _ _ _ h => h)
    (next_rule.bind fun c => ?_)
  cases c with
  | read dev blockno =>
    refine Triple.bind (R := fun _ => Ready p) (fun s hs => ?_) fun _ _ h => h
    exact wp_mono (fun b s h => ⟨h.1.1.1, trivial⟩)
      (host.bread hs.2 (fun _ _ => trivial) s hs.1)
  | store b d =>
    exact (host (o := .store b d) trivial Holding.keeps (fun _ _ _ => trivial)
      (store_spec (ψ := fun _ => True) d)).conseq
        (fun s hs => ⟨⟨hs.1.1, hs.2, trivial⟩, trivial⟩) fun _ s hs => ⟨hs.1.1, trivial⟩
  | write b =>
    exact (host.bwrite 0 (fun _ _ => trivial) (ψ := fun _ => True)).conseq
      (fun s hs => ⟨⟨hs.1.1, hs.2, trivial⟩, trivial⟩) fun _ s hs => ⟨hs.1.1, trivial⟩
  | release b =>
    exact (host.brelse 0 (fun _ _ => trivial) (ψ := fun _ => True)
      fun _ he => absurd he List.not_mem_nil).pre fun s hs => ⟨⟨hs.1.1, hs.2, trivial⟩, trivial⟩
  | pin b =>
    exact (host (D := D) (p := p) (o := .bpin b) trivial Holding.keeps (fun _ _ _ => trivial)
      bpin_spec).conseq (fun s hs => ⟨⟨hs.1.1, hs.2.1, hs.2.2⟩, trivial⟩)
        fun _ s hs => ⟨hs.1.1, trivial⟩
  | unpin b =>
    exact (host (D := D) (p := p) (o := .bunpin b) trivial Holding.keeps (fun _ _ _ => trivial)
      bunpin_spec).conseq (fun s hs => ⟨⟨hs.1.1, hs.2.1, hs.2.2⟩, trivial⟩)
        fun _ s hs => ⟨hs.1.1, trivial⟩

/-- `binit` writes links only. -/
theorem foldl_links (bs : List Buf) (s : State D) :
    ∃ next prev, bs.foldl State.pushFront s = { s with next := next, prev := prev } := by
  induction bs generalizing s with
  | nil => exact ⟨s.next, s.prev, rfl⟩
  | cons b bs ih =>
    obtain ⟨next, prev, heq⟩ := ih (s.pushFront b)
    exact ⟨next, prev, heq⟩

theorem binit_links (s : State D) :
    ∃ next prev, binit s = { s with next := next, prev := prev } := by
  obtain ⟨next, prev, heq⟩ := foldl_links (List.finRange NBUF)
    { s with next := update s.next none none, prev := update s.prev none none }
  exact ⟨next, prev, heq⟩

theorem binit_circle (s : State D) : Links.Circle (binit s).next (binit s).prev none
    ((List.finRange NBUF).reverse.map some) := by
  have hempty : Links.Circle (update s.next none none) (update s.prev none none) none
      (([] : List Buf).map some) :=
    ⟨Function.update_self .., Function.update_self .., List.nodup_singleton _⟩
  have hnodup : ((List.finRange NBUF).reverse ++ []).Nodup := by
    rw [List.append_nil, List.nodup_reverse]
    exact List.nodup_finRange NBUF
  have hcircle := foldl_pushFront
    (s := { s with next := update s.next none none, prev := update s.prev none none }) hempty hnodup
  rw [List.append_nil] at hcircle
  exact hcircle

theorem inv_start (disk : Key → D) (data : Buf → D) : Inv (start disk data).mem := by
  have hcircle := binit_circle (State.zero disk data)
  obtain ⟨next, prev, heq⟩ := binit_links (State.zero disk data)
  show Inv (binit _)
  rw [heq] at hcircle ⊢
  refine ⟨⟨_, hcircle, fun b => List.mem_reverse.2 (List.mem_finRange b), ?_⟩,
    fun b c hb => absurd rfl hb, fun b => ?_, fun b => ?_, fun b hb => ?_,
    fun b hb => Bool.noConfusion hb, fun k hk => absurd rfl hk, fun b => Nat.le_refl 0⟩
  · exact List.Pairwise.imp (R := fun _ _ => True) (fun _ _ _ => Nat.le_refl 0)
      (List.pairwise_of_forall fun _ _ => trivial)
  · have hnone : (State.transits { State.zero disk data with next := next, prev := prev } b) = ∅ := by
      refine Finset.eq_empty_of_forall_notMem fun q hq => ?_
      cases mem_transits.1 hq
    unfold State.uses
    rw [hnone]
    rfl
  · show 0 + NPROC + 1 < 2 ^ 32
    decide
  · rcases hb with hb | ⟨q, hq⟩
    · exact absurd rfl hb
    · cases hq

theorem main_ok (disk : Key → D) (data : Buf → D) (p : Slot) :
    (logic D).Ok p ((start disk data).code p) (start disk data).mem := by
  refine wp_mono (Q := fun _ _ => False) (fun _ _ h => h.elim) (main_rule _ ?_)
  obtain ⟨next, prev, heq⟩ := binit_links (State.zero disk data)
  show Ready p (binit _)
  rw [heq]
  refine ⟨⟨rfl, fun c _ hlock => ?_, fun _ he => absurd he List.not_mem_nil⟩, trivial⟩
  cases hlock

/-- In every reachable state the cache is consistent and each process is about
to do something safe, and no step makes a buffer in use stand for another
block. -/
theorem buffer_cache (disk : Key → D) (data : Buf → D) (g : Config (Op D) (State D) Slot)
    (hg : (machine D).Reach Machine.always (start disk data) g) :
    Consistent g.mem ∧
      (∀ (β : Type) (p : Slot) (o : Op D β), (machine D).Next g p o → Safe False β p o g.mem) ∧
      ∀ p i g', (machine D).step p i g = some g' →
        ∀ b, g.mem.refcnt b ≠ 0 → g'.mem.key b = g.mem.key b := by
  have hok := main_ok disk data
  obtain ⟨hinv, hsafe⟩ := Logic.inv_of_reach (fun h => h) (fun _ => rfl) (inv_start disk data) hok hg
  refine ⟨hinv.consistent, fun β p o hn => hsafe β p o hn trivial, fun p i g' hs b hb => ?_⟩
  rcases guar_of_step (fun h => h) (fun _ => rfl) (inv_start disk data) hok hg
    (fun _ _ _ => trivial) hs with heq | hguar
  · rw [heq]
  · exact hguar.others.key b hb

/-- A process reads a block, writes to it and releases it. -/
def readWrite : List (Slot × Call Nat) :=
  let step := (0, .release 0)
  [step, (0, .read 1 5), step, step, step, step, step, step,
    step, (0, .store 0 8), step, step, (0, .write 0), step, step,
    step, (0, .release 0), step, step, step]

theorem buffer_cache_readWrite : ∃ g : Config (Op Nat) (State Nat) Slot,
    g.mem.contents (1, 5) = 8 ∧ Consistent g.mem := by
  have hview : ((machine Nat).run Machine.always readWrite (start (fun _ => 7) fun _ => 0)).map
      (fun g => g.mem.contents (1, 5)) = some 8 := by decide +kernel
  obtain ⟨g, hrun, hg⟩ := Option.map_eq_some_iff.1 hview
  exact ⟨g, hg, (buffer_cache _ _ g (Machine.reach_of_run _ _ .start hrun)).1⟩

end Xv6.Bio
