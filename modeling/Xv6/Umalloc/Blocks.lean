import Xv6.Umalloc.Fits

/-!
# Live blocks and free blocks

Whatever a program allocates, frees and writes, each unit of a core is in one
block, which is live or free.  The free blocks are in a circle in the order of
their addresses, and no two of them touch.
-/

namespace Xv6.Umalloc

open Arena (Ordered)
open Links (Chain Path)

/-- What `morecore` has got. -/
def core (k : Nat × Nat) : Arena.Block := ⟨k.1, k.2⟩

/-- The block behind a pointer of the program. -/
def held (m : Words.Mem) (b : Block) : Arena.Block := ⟨b.ap - HEADER, size m (b.ap - HEADER)⟩

/-- All blocks but `base`. -/
def blocks (s : System) (c : List Arena.Block) : List Arena.Block :=
  c ++ s.live.map (held s.heap.mem)

structure Sound (base : Nat) (s : System) (c : List Arena.Block) : Prop where
  ring : Ring base s.heap c
  free : Free base s.heap.brk c
  shares : (Arena.units HEADER (blocks s c)).Perm (Arena.units HEADER (s.heap.cores.map core))
  live : ∀ b ∈ s.live, HEADER ≤ b.ap ∧ units b.n ≤ (held s.heap.mem b).count
  cores : ∀ k ∈ s.heap.cores, base + HEADER ≤ k.1 ∧ (core k).stop HEADER ≤ s.heap.brk
  apart : (s.heap.cores.map core).Pairwise (Arena.Apart HEADER)

variable {base a : Nat} {s s' : System} {h h' : Heap} {c c' l : List Arena.Block} {b : Block}
  {x : Arena.Block} {live : List Block} {m m' : Words.Mem}

theorem Sound.pos (h : Sound base s c) : ∀ x ∈ blocks s c, 0 < x.count := by
  intro x hx
  rcases List.mem_append.1 hx with hx | hx
  · exact h.free.pos x hx
  · obtain ⟨b, hb, rfl⟩ := List.mem_map.1 hx
    exact Nat.lt_of_lt_of_le (Nat.succ_pos _) (h.live b hb).2

/-- No two blocks overlap. -/
theorem Sound.blocks_apart (h : Sound base s c) : (blocks s c).Pairwise (Arena.Apart HEADER) :=
  Arena.apart_of_perm (by decide) h.apart h.pos h.shares

/-- What is in a block is in a core. -/
theorem Sound.in_core (h : Sound base s c) (hx : x ∈ blocks s c)
    (ha : x.addr ≤ a ∧ a < x.stop HEADER) :
    ∃ k ∈ s.heap.cores, (core k).addr ≤ a ∧ a < (core k).stop HEADER := by
  obtain ⟨u, hu, hle, hlt⟩ := Arena.exists_unit ha
  have hmem := h.shares.mem_iff.1 (List.mem_flatMap.2 ⟨x, hx, hu⟩)
  obtain ⟨y, hy, huy⟩ := List.mem_flatMap.1 hmem
  obtain ⟨k, hk, rfl⟩ := List.mem_map.1 hy
  have hb := Arena.mem_units huy
  exact ⟨k, hk, by omega, by omega⟩

theorem Sound.bounds (h : Sound base s c) (hx : x ∈ blocks s c) :
    base + HEADER ≤ x.addr ∧ x.stop HEADER ≤ s.heap.brk := by
  have hlt : x.addr < x.stop HEADER :=
    Nat.lt_of_lt_of_le (Nat.lt_add_of_pos_right (by decide)) (header_le (h.pos x hx))
  obtain ⟨k, hk, hle, -⟩ := h.in_core hx (a := x.addr) ⟨Nat.le_refl _, hlt⟩
  obtain ⟨k', hk', -, hlt'⟩ := h.in_core hx (a := x.stop HEADER - 1) (by omega)
  have hk₁ := (h.cores k hk).1
  have hk₂ := (h.cores k' hk').2
  simp only [core] at hle
  omega

theorem Sound.held_mem (_ : Sound base s c) (hb : b ∈ s.live) :
    held s.heap.mem b ∈ blocks s c :=
  List.mem_append_right _ (List.mem_map_of_mem hb)

/-- A live block and a free one. -/
theorem Sound.apart_free (h : Sound base s c) (hb : b ∈ s.live) :
    ∀ x ∈ c, Arena.Apart HEADER (held s.heap.mem b) x := fun x hx =>
  ((List.pairwise_append.1 h.blocks_apart).2.2 x hx _ (List.mem_map_of_mem hb)).symm

/-- What is not written. -/
theorem Within.keeps (h : Within base l m m') (hbase : base + HEADER ≤ x.addr)
    (hl : ∀ y ∈ l, Arena.Apart HEADER x y) (ha : x.addr ≤ a ∧ a < x.stop HEADER) :
    m' a = m a := by
  refine h a (.inr (by omega)) fun y hy => ?_
  have hxy := hl y hy
  unfold Arena.Apart at hxy
  omega

theorem Within.held (h : Within base l m m') (hbase : base + HEADER ≤ (held m b).addr)
    (hpos : 0 < (Umalloc.held m b).count) (hl : ∀ y ∈ l, Arena.Apart HEADER (Umalloc.held m b) y) :
    Umalloc.held m' b = Umalloc.held m b := by
  have hlen := header_le hpos
  have hsize : size m' (b.ap - HEADER) = size m (b.ap - HEADER) := by
    refine size_congr fun a hle hlt => h.keeps hbase hl ⟨hle, Nat.lt_of_lt_of_le hlt hlen⟩
  unfold Umalloc.held
  rw [hsize]

/-- The live blocks stay as they are. -/
theorem Sound.map_held (h : Sound base s c) (hm : Within base l s.heap.mem m')
    (hl : ∀ b ∈ live, b ∈ s.live ∧ ∀ y ∈ l, Arena.Apart HEADER (held s.heap.mem b) y) :
    live.map (held m') = live.map (held s.heap.mem) := by
  refine List.map_congr_left fun b hb => ?_
  obtain ⟨hb, hap⟩ := hl b hb
  have hmem := h.held_mem hb
  exact hm.held (h.bounds hmem).1 (h.pos _ hmem) hap

/-! ## What the steps keep -/

/-- More memory is free. -/
theorem Sound.grow {nu : Nat} (hs : Sound base ⟨h, live⟩ c) (hgrown : Grown base nu h c h' c') :
    Sound base ⟨h', live⟩ c' := by
  have hcore : ∀ b ∈ live, b ∈ live ∧ ∀ y ∈ (⟨h.brk, nu⟩ : Arena.Block) :: c,
      Arena.Apart HEADER (held h.mem b) y := by
    intro b hb
    refine ⟨hb, fun y hy => ?_⟩
    rcases List.mem_cons.1 hy with rfl | hy
    · exact .inl (hs.bounds (hs.held_mem hb)).2
    · exact hs.apart_free hb y hy
  have hheld := hs.map_held hgrown.within hcore
  have hbrk : h.brk ≤ h'.brk := hgrown.brk ▸ Nat.le_add_right ..
  have hcores : h'.cores.map core = ⟨h.brk, nu⟩ :: h.cores.map core := by
    rw [hgrown.cores]
    rfl
  refine ⟨hgrown.ring, hgrown.free, ?_, fun b hb => ?_, fun k hk => ?_, ?_⟩
  · have hshares := hs.shares
    simp only [blocks, Arena.units_append, hheld, hcores, Arena.units_cons] at hshares ⊢
    refine (hgrown.shares.append_right _).trans ?_
    rw [Arena.units_cons, List.append_assoc]
    exact hshares.append_left _
  · have hb' := List.map_eq_map_iff.1 hheld b hb
    show _ ∧ _ ≤ (held h'.mem b).count
    rw [hb']
    exact hs.live b hb
  · rw [show (⟨h', live⟩ : System).heap.cores = _ from hgrown.cores] at hk
    rcases List.mem_cons.1 hk with rfl | hk
    · exact ⟨hs.free.base_le, Nat.le_of_eq hgrown.brk.symm⟩
    · obtain ⟨hle, hstop⟩ := hs.cores k hk
      exact ⟨hle, Nat.le_trans hstop hbrk⟩
  · show (h'.cores.map core).Pairwise _
    rw [hcores]
    refine List.pairwise_cons.2 ⟨fun y hy => ?_, hs.apart⟩
    obtain ⟨k, hk, rfl⟩ := List.mem_map.1 hy
    exact .inr (hs.cores k hk).2

/-- A block is taken. -/
theorem Sound.take {n : Nat} (hs : Sound base ⟨h, live⟩ c)
    (htaken : Taken base (units n) h c h' c' x) :
    Sound base ⟨h', ⟨x.addr + HEADER, n⟩ :: live⟩ c' := by
  have hheld := hs.map_held htaken.within fun b hb => ⟨hb, hs.apart_free hb⟩
  have hnew : held h'.mem ⟨x.addr + HEADER, n⟩ = x := by
    unfold held
    simp only [Nat.add_sub_cancel]
    rw [htaken.size, ← htaken.count]
  refine ⟨htaken.ring, htaken.brk ▸ htaken.free, ?_, fun b hb => ?_, ?_, ?_⟩
  · have hshares := hs.shares
    show (Arena.units HEADER (c' ++ (held h'.mem _ :: live.map (held h'.mem)))).Perm
      (Arena.units HEADER (h'.cores.map core))
    rw [hnew, hheld, htaken.cores]
    refine List.Perm.trans ?_ hshares
    refine (Arena.units_perm List.perm_middle).trans ?_
    simp only [blocks, Arena.units_append, Arena.units_cons, ← List.append_assoc]
    exact htaken.shares.append_right _
  · rcases List.mem_cons.1 hb with rfl | hb
    · refine ⟨Nat.le_add_left .., ?_⟩
      show units n ≤ (held h'.mem _).count
      rw [hnew, htaken.count]
    · have hb' := List.map_eq_map_iff.1 hheld b hb
      show _ ∧ _ ≤ (held h'.mem b).count
      rw [hb']
      exact hs.live b hb
  · show ∀ k ∈ h'.cores, _ ∧ _ ≤ h'.brk
    rw [htaken.cores, htaken.brk]
    exact hs.cores
  · show (h'.cores.map core).Pairwise _
    rw [htaken.cores]
    exact hs.apart

/-- A live block is given back. -/
theorem Sound.release (hs : Sound base ⟨h, live⟩ c) (hb : b ∈ live) :
    ∃ h', Umalloc.free b.ap h = some h' ∧ h'.brk = h.brk ∧
      Sound base ⟨h', live.erase b⟩ (Arena.release HEADER (held h.mem b) c) ∧
      Within base (held h.mem b :: c) h.mem h'.mem := by
  have hmem := hs.held_mem hb
  obtain ⟨hbase, hstop⟩ := hs.bounds hmem
  have hpos := hs.pos _ hmem
  have hx : Away base c (held h.mem b) :=
    ⟨hbase, hpos, Nat.le_trans hstop hs.free.brk_le, hs.apart_free hb⟩
  obtain ⟨h', hrun, hring, hbrk, hcores, honly⟩ := free_spec hs.ring hs.free hx rfl
  have hap : (held h.mem b).addr + HEADER = b.ap := Nat.sub_add_cancel (hs.live b hb).1
  rw [hap] at hrun
  have hwithin : Within base (held h.mem b :: c) h.mem h'.mem := by
    refine honly.within fun p hp => ?_
    rcases List.mem_cons.1 hp with rfl | hp
    · exact .inr ⟨_, List.mem_cons_self, Nat.le_refl _, header_le hpos⟩
    · obtain ⟨y, hy, rfl⟩ := List.mem_map.1 hp
      rcases List.mem_cons.1 hy with rfl | hy
      · exact .inl rfl
      · exact .inr ⟨y, List.mem_cons_of_mem _ hy, Nat.le_refl _, header_le (hs.free.pos y hy)⟩
  have hperm := List.perm_cons_erase hb
  have hother : ∀ y ∈ live.erase b, Arena.Apart HEADER (held h.mem y) (held h.mem b) := by
    have hpair := (hperm.map (held h.mem)).pairwise (List.pairwise_append.1 hs.blocks_apart).2.1
      Arena.Apart.symm
    intro y hy
    exact ((List.pairwise_cons.1 hpair).1 _ (List.mem_map_of_mem hy)).symm
  have haway : ∀ y ∈ live.erase b, y ∈ live ∧
      ∀ z ∈ held h.mem b :: c, Arena.Apart HEADER (held h.mem y) z := fun y hy =>
    ⟨List.mem_of_mem_erase hy, List.forall_mem_cons.2
      ⟨hother y hy, hs.apart_free (List.mem_of_mem_erase hy)⟩⟩
  have hheld := hs.map_held hwithin haway
  refine ⟨h', hrun, hbrk, ⟨hring, hbrk ▸ hs.free.release hx hstop, ?_, fun y hy => ?_, ?_, ?_⟩, hwithin⟩
  · show (Arena.units HEADER (Arena.release HEADER _ c ++ (live.erase b).map (held h'.mem))).Perm
      (Arena.units HEADER (h'.cores.map core))
    rw [hheld, hcores]
    refine List.Perm.trans ?_ hs.shares
    refine List.Perm.trans ?_ (Arena.units_perm ((hperm.map (held h.mem)).append_left c).symm)
    rw [List.map_cons]
    refine List.Perm.trans ?_ (Arena.units_perm List.perm_middle).symm
    simp only [Arena.units_append, Arena.units_cons, ← List.append_assoc]
    exact Arena.units_release.append_right _
  · have hy' := List.map_eq_map_iff.1 hheld y hy
    show _ ∧ _ ≤ (held h'.mem y).count
    rw [hy']
    exact hs.live y (List.mem_of_mem_erase hy)
  · show ∀ k ∈ h'.cores, _ ∧ _ ≤ h'.brk
    rw [hcores, hbrk]
    exact hs.cores
  · show (h'.cores.map core).Pairwise _
    rw [hcores]
    exact hs.apart

/-- The break moves on. -/
theorem Sound.grow_brk {brk : Nat} (hs : Sound base ⟨h, live⟩ c) (hle : h.brk ≤ brk)
    (hmax : brk ≤ MEMORY) : Sound base ⟨{ h with brk := brk }, live⟩ c :=
  ⟨⟨hs.ring.linked, hs.ring.freep_mem⟩, hs.free.grow hle hmax, hs.shares, hs.live, fun k hk =>
    ⟨(hs.cores k hk).1, Nat.le_trans (hs.cores k hk).2 hle⟩, hs.apart⟩

/-- A program does not write a header. -/
theorem Sound.not_writable (hs : Sound base s c) :
    (∀ x ∈ root base :: blocks s c, ∀ a, x.addr ≤ a → a < x.addr + HEADER →
      ¬ s.Writable base a) := by
  rintro x hx a hle hlt (⟨b, hb, hba, han⟩ | ⟨hcores, hbase⟩)
  · have hmem := hs.held_mem hb
    obtain ⟨hap, hunits⟩ := hs.live b hb
    have hstop : b.ap + b.n ≤ (held s.heap.mem b).stop HEADER := by
      have hn := units_le b.n
      simp only [Arena.Block.stop, held, HEADER] at *
      omega
    have haddr : (held s.heap.mem b).addr + HEADER = b.ap := Nat.sub_add_cancel hap
    rcases List.mem_cons.1 hx with rfl | hx
    · have hbound := (hs.bounds hmem).1
      have hlt : a < base + HEADER := hlt
      omega
    · by_cases heq : x = held s.heap.mem b
      · rw [heq] at hlt
        omega
      · have hapart := hs.blocks_apart.forall hx hmem heq
        have hxlen := header_le (hs.pos x hx)
        unfold Arena.Apart at hapart
        omega
  · rcases List.mem_cons.1 hx with rfl | hx
    · have hle : base ≤ a := hle
      have hlt : a < base + HEADER := hlt
      omega
    · have hxlen := header_le (hs.pos x hx)
      obtain ⟨k, hk, hka, hak⟩ := hs.in_core hx ⟨hle, Nat.lt_of_lt_of_le hlt hxlen⟩
      have hout := hcores k hk
      simp only [core, Arena.Block.stop] at hka hak
      omega

/-- What the program writes does not matter. -/
theorem Sound.write (hs : Sound base s c) (hm : ∀ a, m a = s.heap.mem a ∨ s.Writable base a) :
    Sound base ⟨{ s.heap with mem := m }, s.live⟩ c := by
  have hheader : ∀ x ∈ root base :: blocks s c, ∀ a, x.addr ≤ a → a < x.addr + HEADER →
      m a = s.heap.mem a := fun x hx a hle hlt =>
    (hm a).resolve_right (hs.not_writable x hx a hle hlt)
  have hheld : s.live.map (held m) = s.live.map (held s.heap.mem) := by
    refine List.map_congr_left fun b hb => ?_
    have hsize : size m (b.ap - HEADER) = size s.heap.mem (b.ap - HEADER) :=
      size_congr (hheader _ (List.mem_cons_of_mem _ (hs.held_mem hb)))
    unfold held
    rw [hsize]
  refine ⟨⟨hs.ring.linked.congr fun x hx => hheader x ?_, hs.ring.freep_mem⟩, hs.free, ?_,
    fun b hb => ?_, hs.cores, hs.apart⟩
  · rcases List.mem_cons.1 hx with rfl | hx
    · exact List.mem_cons_self
    · exact List.mem_cons_of_mem _ (List.mem_append_left _ hx)
  · show (Arena.units HEADER (c ++ s.live.map (held m))).Perm _
    rw [hheld]
    exact hs.shares
  · have hb' := List.map_eq_map_iff.1 hheld b hb
    show _ ∧ _ ≤ (held m b).count
    rw [hb']
    exact hs.live b hb

/-! ## Runs -/

/-- Nothing has been allocated, or the blocks are as they should be. -/
inductive Kept (base : Nat) (s : System) : Prop
  | fresh (hstart : Start base s)
  | used (c : List Arena.Block) (hsound : Sound base s c) (hbase : 0 < base)

/-- The first call of `malloc` makes the circle. -/
theorem sound_init (hstart : Start base s) : Sound base ⟨init base s.heap, []⟩ [] := by
  obtain ⟨hfreep, hcores, -, hpos, hbase, hbrk⟩ := hstart
  have hlt : base < 2 ^ 64 := by
    simp only [HEADER, MEMORY] at *
    omega
  have hinit : init base s.heap = { s.heap with
      mem := setSize (setPtr s.heap.mem base base) base 0, freep := base } := if_pos hfreep
  have hlinked : Linked (init base s.heap).mem [root base] base := by
    rw [hinit]
    refine linked_cons.2 ⟨?_, size_setSize_self (by decide), trivial, by simp⟩
    exact ptr_setSize_self.trans (ptr_setPtr_self hlt)
  have hnone : (init base s.heap).cores = [] := (init_cores base s.heap).trans hcores
  refine ⟨⟨hlinked, ?_⟩, ⟨List.pairwise_singleton .., by simp, by simp, by simp, ?_, ?_⟩, ?_,
    by simp, ?_, ?_⟩
  · rw [hinit]
    exact List.mem_cons_self
  · rw [init_brk]
    exact hbase
  · rw [init_brk]
    exact hbrk
  · rw [hnone]
    exact .refl _
  · rw [hnone]
    simp
  · rw [hnone]
    exact .nil

theorem Sound.freep_ne_zero (h : Sound base s c) (hbase : 0 < base) : s.heap.freep ≠ 0 := by
  obtain ⟨b, hb, heq⟩ := List.mem_map.1 h.ring.freep_mem
  have hle := h.free.root_le b hb
  omega

theorem Sound.init_eq (h : Sound base s c) (hbase : 0 < base) : init base s.heap = s.heap :=
  if_neg (h.freep_ne_zero hbase)

/-- Before the loop of `malloc` there is a circle. -/
theorem Kept.init (h : Kept base s) : 0 < base ∧ ∃ c, Sound base ⟨init base s.heap, s.live⟩ c ∧
    (s.heap.freep = 0 ∧ c = [] ∨ Sound base s c) := by
  cases h with
  | fresh hstart =>
    refine ⟨hstart.2.2.2.1, [], ?_, .inl ⟨hstart.1, rfl⟩⟩
    rw [hstart.2.2.1]
    exact sound_init hstart
  | used c hsound hbase =>
    refine ⟨hbase, c, ?_, .inr hsound⟩
    rw [hsound.init_eq hbase]
    exact hsound

/-- A block of the program is behind the start. -/
theorem Kept.sound_of_live (h : Kept base s) (hb : b ∈ s.live) : 0 < base ∧ ∃ c, Sound base s c := by
  cases h with
  | fresh hstart =>
    rw [hstart.2.2.1] at hb
    cases hb
  | used c hsound hbase => exact ⟨hbase, c, hsound⟩

/-- `malloc` returns, and the blocks are as they should be. -/
theorem Kept.malloc (h : Kept base s) (grants : Nat → Bool) {n : Nat} (hfits : Umalloc.Fits n) :
    ∃ p h', malloc base grants n s.heap = some (p, h') ∧
      Kept base ⟨h', if p = 0 then s.live else ⟨p, n⟩ :: s.live⟩ := by
  obtain ⟨hbase, c, hsound, -⟩ := h.init
  obtain ⟨p, h', hrun, hres⟩ := malloc_cases grants hfits hbase hsound.ring
    (init_brk base s.heap ▸ hsound.free)
  refine ⟨p, h', hrun, ?_⟩
  cases hres with
  | refused hsmall hnone => exact .used c hsound hbase
  | found htaken => exact .used _ (hsound.take htaken) hbase
  | grown hsmall hgrown htaken => exact .used _ ((hsound.grow hgrown).take htaken) hbase

/-- What a step keeps. -/
theorem Kept.step (h : Kept base s) (hstep : Step base s s') : Kept base s' := by
  cases hstep with
  | malloc hfits heq =>
    obtain ⟨p, h', hrun, hkept⟩ := h.malloc _ hfits
    rw [heq] at hrun
    cases hrun
    exact hkept
  | free hb heq =>
    obtain ⟨hbase, c, hsound⟩ := h.sound_of_live hb
    obtain ⟨h', hrun, -, hsound', -⟩ := hsound.release hb
    rw [heq] at hrun
    cases hrun
    exact .used _ hsound' hbase
  | @sbrk grants n p h' hn heq =>
    unfold Umalloc.sbrk at heq
    split at heq
    · cases heq
    · next hyes =>
      cases heq
      have hresized : s.heap.brk ≤ resized s.heap.brk n := by
        unfold resized
        split <;> omega
      have hmax : s.heap.brk ≤ MEMORY → resized s.heap.brk n ≤ MEMORY := by
        intro hle
        unfold resized
        split <;> simp only [MEMORY] at * <;> omega
      cases h with
      | fresh hstart =>
        obtain ⟨hfreep, hcores, hlive, hpos, hbase, hbrk⟩ := hstart
        exact .fresh ⟨hfreep, hcores, hlive, hpos, Nat.le_trans hbase hresized, hmax hbrk⟩
      | used c hsound hbase =>
        exact .used c (hsound.grow_brk hresized (hmax hsound.free.brk_le)) hbase
  | write hm =>
    cases h with
    | fresh hstart => exact .fresh hstart
    | used c hsound hbase => exact .used c (hsound.write hm) hbase

theorem kept_of_reachable (h : Reachable base s) : Kept base s := by
  induction h with
  | start h => exact .fresh h
  | step _ hstep ih => exact ih.step hstep

/-- `c` are the free blocks but `base`. -/
structure Partition (base : Nat) (s : System) (c : List Arena.Block) : Prop where
  /-- The links lead from `base` through the free blocks back to `base`. -/
  circle : Path (ptr s.heap.mem) base (c.map (·.addr)) base
  freep_mem : s.heap.freep ∈ base :: c.map (·.addr)
  sizes : ∀ x ∈ c, size s.heap.mem x.addr = x.count
  /-- There is a byte between a free block and the next one. -/
  ordered : Ordered HEADER (root base :: c)
  /-- The header of `base`, the free blocks and the live ones do not overlap. -/
  apart : (⟨base, 1⟩ :: blocks s c).Pairwise (Arena.Apart HEADER)
  /-- The units of the blocks are those of the cores. -/
  shares : (Arena.units HEADER (blocks s c)).Perm (Arena.units HEADER (s.heap.cores.map core))
  /-- The bytes of a live block are behind its header. -/
  room : ∀ b ∈ s.live, (held s.heap.mem b).addr + HEADER = b.ap ∧
    b.ap + b.n ≤ (held s.heap.mem b).stop HEADER
  granted : ∀ k ∈ s.heap.cores, base + HEADER ≤ k.1 ∧ k.1 + HEADER * k.2 ≤ s.heap.brk

theorem Sound.room (h : Sound base s c) (hb : b ∈ s.live) :
    (held s.heap.mem b).addr + HEADER = b.ap ∧ b.ap + b.n ≤ (held s.heap.mem b).stop HEADER := by
  obtain ⟨hap, hunits⟩ := h.live b hb
  have hn := units_le b.n
  refine ⟨Nat.sub_add_cancel hap, ?_⟩
  simp only [Arena.Block.stop, held, HEADER] at *
  omega

theorem Sound.partition (h : Sound base s c) : Partition base s c where
  circle := Chain.path.1 h.ring.linked.chain
  freep_mem := h.ring.freep_mem
  sizes x hx := h.ring.linked.size x (List.mem_cons_of_mem _ hx)
  ordered := h.free.ordered
  apart := List.pairwise_cons.2 ⟨fun _ hx => .inl (h.bounds hx).1, h.blocks_apart⟩
  shares := h.shares
  room _ hb := h.room hb
  granted := h.cores

/-- In every state that a program can reach, each unit that `morecore` has got is in one live or
free block, and the free ones are in a circle in order, joined where they touch. -/
theorem blocks_partition (base : Nat) (s : System) (h : Reachable base s) :
    (s.heap.freep = 0 ∧ s.heap.cores = [] ∧ s.live = []) ∨ ∃ c, Partition base s c := by
  cases kept_of_reachable h with
  | fresh hstart => exact .inl ⟨hstart.1, hstart.2.1, hstart.2.2.1⟩
  | used c hsound _ => exact .inr ⟨c, hsound.partition⟩

theorem sbrk_init {grants : Nat → Bool} {n : BitVec 32} :
    sbrk grants n (init base h) = none ↔ sbrk grants n h = none := by
  unfold sbrk
  rw [init_brk]
  split <;> simp

/-- The loops of `malloc` and `free` end in every state that a program can reach.  `malloc`
returns NULL only when no free block is large enough and the kernel refuses. -/
theorem calls_return (base : Nat) (s : System) (h : Reachable base s) :
    (∀ b ∈ s.live, ∃ h', free b.ap s.heap = some h') ∧
      ∃ c, (s.heap.freep = 0 ∧ c = [] ∨ Partition base s c) ∧
        ∀ grants n, Umalloc.Fits n → ∃ p h', malloc base grants n s.heap = some (p, h') ∧
          (p = 0 → (∀ x ∈ c, x.count < units n) ∧ sbrk grants (request n) s.heap = none) := by
  have hkept := kept_of_reachable h
  constructor
  · intro b hb
    obtain ⟨-, c, hsound⟩ := hkept.sound_of_live hb
    obtain ⟨h', hrun, -⟩ := hsound.release hb
    exact ⟨h', hrun⟩
  · obtain ⟨hbase, c, hinit, hsound⟩ := hkept.init
    refine ⟨c, hsound.imp_right Sound.partition, fun grants n hfits => ?_⟩
    obtain ⟨p, h', hrun, hres⟩ := malloc_cases grants hfits hbase hinit.ring
      (init_brk base s.heap ▸ hinit.free)
    refine ⟨p, h', hrun, fun hp => ?_⟩
    cases hres with
    | refused hsmall hnone => exact ⟨hsmall, sbrk_init.1 hnone⟩
    | found htaken => cases hp
    | grown hsmall hgrown htaken => cases hp

/-- The bytes of a live block are not written with the headers. -/
theorem Sound.contents (hs : Sound base s c) (hb : b ∈ s.live) (hm : Within base l s.heap.mem m)
    (hl : ∀ x ∈ l, Arena.Apart HEADER (held s.heap.mem b) x) (ha : b.ap ≤ a ∧ a < b.ap + b.n) :
    m a = s.heap.mem a := by
  obtain ⟨haddr, hstop⟩ := hs.room hb
  exact hm.keeps (hs.bounds (hs.held_mem hb)).1 hl (by omega)

/-- The last block is none of the others. -/
theorem Sound.fresh {p n : Nat} (hs : Sound base ⟨h, ⟨p, n⟩ :: live⟩ c) (hb : b ∈ live)
    (ha : b.ap ≤ a ∧ a < b.ap + b.n) : a < p ∨ p + n ≤ a := by
  obtain ⟨haddr, hstop⟩ := hs.room (b := b) (List.mem_cons_of_mem _ hb)
  obtain ⟨haddr', hstop'⟩ := hs.room (b := ⟨p, n⟩) List.mem_cons_self
  have hapart := (List.pairwise_cons.1 (List.pairwise_append.1 hs.blocks_apart).2.1).1 _
    (List.mem_map_of_mem hb)
  unfold Arena.Apart at hapart
  dsimp only at *
  omega

theorem Malloced.contents {grants : Nat → Bool} {n p : Nat} (hs : Sound base ⟨h, live⟩ c)
    (hres : Malloced base grants n h c p h') (hb : b ∈ live) (ha : b.ap ≤ a ∧ a < b.ap + b.n) :
    h'.mem a = h.mem a ∧ (p ≠ 0 → a < p ∨ p + n ≤ a) := by
  cases hres with
  | refused hsmall hnone => exact ⟨rfl, fun hp => absurd rfl hp⟩
  | found htaken =>
    exact ⟨hs.contents hb htaken.within (hs.apart_free hb) ha, fun _ => (hs.take htaken).fresh hb ha⟩
  | @grown c₁ c' x s₁ s' hsmall hgrown htaken =>
    have hs₁ := hs.grow hgrown
    have hmore : s₁.mem a = h.mem a := by
      refine hs.contents hb hgrown.within (List.forall_mem_cons.2 ⟨?_, hs.apart_free hb⟩) ha
      exact .inl (hs.bounds (hs.held_mem hb)).2
    have htake := hs₁.contents hb htaken.within (hs₁.apart_free hb) ha
    exact ⟨htake.trans hmore, fun _ => (hs₁.take htaken).fresh hb ha⟩

/-- `malloc` and `free` leave the contents of the live blocks alone, and what `malloc` returns
is in none of them. -/
theorem contents_kept (base : Nat) (s : System) (h : Reachable base s) (b : Block)
    (hb : b ∈ s.live) (a : Nat) (ha : b.ap ≤ a ∧ a < b.ap + b.n) :
    (∀ grants n p h', Umalloc.Fits n → malloc base grants n s.heap = some (p, h') →
      h'.mem a = s.heap.mem a ∧ (p ≠ 0 → a < p ∨ p + n ≤ a)) ∧
    ∀ f ∈ s.live.erase b, ∀ h', free f.ap s.heap = some h' → h'.mem a = s.heap.mem a := by
  obtain ⟨hbase, c, hsound⟩ := (kept_of_reachable h).sound_of_live hb
  constructor
  · intro grants n p h' hfits hrun
    have hinit := hsound.init_eq hbase
    have hring : Ring base (init base s.heap) c := by
      rw [hinit]
      exact hsound.ring
    obtain ⟨p', h'', hrun', hres⟩ := malloc_cases grants hfits hbase hring hsound.free
    rw [hrun] at hrun'
    cases hrun'
    rw [hinit] at hres
    exact hres.contents hsound hb ha
  · intro f hf h' hrun
    have hlive := List.mem_of_mem_erase hf
    obtain ⟨h'', hrun', -, -, hwithin⟩ := hsound.release hlive
    rw [hrun] at hrun'
    cases hrun'
    refine hsound.contents hb hwithin (List.forall_mem_cons.2 ⟨?_, hsound.apart_free hb⟩) ha
    have hpair := ((List.perm_cons_erase hb).map (held s.heap.mem)).pairwise
      (List.pairwise_append.1 hsound.blocks_apart).2.1 Arena.Apart.symm
    exact (List.pairwise_cons.1 hpair).1 _ (List.mem_map_of_mem hf)

/-! ## A program that allocates -/

theorem start_fivePages : Start 4096 ⟨fivePages, []⟩ := by
  refine ⟨rfl, rfl, rfl, ?_, ?_, ?_⟩ <;> decide

theorem fits_hundred : Umalloc.Fits 100 := by
  unfold Umalloc.Fits
  decide

/-- The program has called `malloc(100)`. -/
theorem exists_reachable : ∃ s b, Reachable 4096 s ∧ b ∈ s.live ∧ b.n = 100 := by
  obtain ⟨p, h, hrun, hres⟩ := malloc_cases (fun _ => true) fits_hundred (by decide)
    (sound_init start_fivePages).ring (init_brk 4096 fivePages ▸ (sound_init start_fivePages).free)
  have hstep := Step.malloc (s := ⟨fivePages, []⟩) fits_hundred hrun
  have hne : p ≠ 0 := by
    cases hres with
    | refused hsmall hnone =>
      revert hnone
      rw [sbrk_init]
      decide
    | found htaken => exact Nat.succ_ne_zero _
    | grown hsmall hgrown htaken => exact Nat.succ_ne_zero _
  rw [if_neg hne] at hstep
  exact ⟨_, ⟨p, 100⟩, .step (.start start_fivePages) hstep, List.mem_cons_self, rfl⟩

theorem blocks_partition_used : ∃ s b, b ∈ s.live ∧ ∃ c, Partition 4096 s c := by
  obtain ⟨s, b, hs, hb, -⟩ := exists_reachable
  rcases blocks_partition 4096 s hs with ⟨-, -, hlive⟩ | hpart
  · rw [hlive] at hb
    cases hb
  · exact ⟨s, b, hb, hpart⟩

theorem calls_return_used : ∃ s : System, ∃ b ∈ s.live, ∃ h', free b.ap s.heap = some h' := by
  obtain ⟨s, b, hs, hb, -⟩ := exists_reachable
  exact ⟨s, b, hb, (calls_return 4096 s hs).1 b hb⟩

theorem contents_kept_used : ∃ s : System, ∃ b ∈ s.live, ∀ grants p h',
    malloc 4096 grants 100 s.heap = some (p, h') → h'.mem b.ap = s.heap.mem b.ap := by
  obtain ⟨s, b, hs, hb, hn⟩ := exists_reachable
  refine ⟨s, b, hb, fun grants p h' hrun => ?_⟩
  exact ((contents_kept 4096 s hs b hb b.ap ⟨Nat.le_refl _, by omega⟩).1 grants 100 p h'
    fits_hundred hrun).1

end Xv6.Umalloc
