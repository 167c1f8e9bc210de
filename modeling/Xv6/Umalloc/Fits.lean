import Xv6.Umalloc.Ring

/-!
# The loop of malloc

The loop takes the end of the first block that is large enough.  If there is
none it asks for more, and then it finds one.
-/

namespace Xv6.Umalloc

open Arena (Ordered link)
open Links (Chain Path first last)

/-- Only the header of `base` and these blocks are written. -/
def Within (base : Nat) (c : List Arena.Block) (m m' : Words.Mem) : Prop :=
  ∀ a, (a < base ∨ base + HEADER ≤ a) → (∀ b ∈ c, a < b.addr ∨ b.stop HEADER ≤ a) → m' a = m a

variable {base n p q prevp : Nat} {m m' m'' : Words.Mem} {hs : List Nat}
  {l l' r c c' : List Arena.Block} {x y : Arena.Block} {s s' : Heap}

theorem Within.trans (h : Within base c m m') (h' : Within base c m' m'') : Within base c m m'' :=
  fun a hb hc => (h' a hb hc).trans (h a hb hc)

theorem Within.mono (h : Within base c m m') (hsub : c ⊆ c') : Within base c' m m' :=
  fun a hb hc => h a hb fun b hb => hc b (hsub hb)

/-- A header is in the block that it begins. -/
theorem Only.within (h : Only hs m m') (hin : ∀ p ∈ hs, p = base ∨ ∃ b ∈ c, b.addr ≤ p ∧
    p + HEADER ≤ b.stop HEADER) : Within base c m m' := by
  intro a hbase hc
  refine h a fun p hp => ?_
  rcases hin p hp with rfl | ⟨b, hb, hle, hstop⟩
  · exact hbase
  · rcases hc b hb with hlt | hge
    · exact .inl (by omega)
    · exact .inr (by omega)

theorem header_le (hpos : 0 < x.count) : x.addr + HEADER ≤ x.stop HEADER := by
  simp only [Arena.Block.stop, HEADER]
  omega

theorem Free.within {brk : Nat} (hfree : Free base brk c)
    (h : Only ((root base :: c).map (·.addr)) m m') : Within base c m m' := by
  refine h.within fun p hp => ?_
  obtain ⟨b, hb, rfl⟩ := List.mem_map.1 hp
  rcases List.mem_cons.1 hb with rfl | hb
  · exact .inl rfl
  · exact .inr ⟨b, hb, Nat.le_refl _, header_le (hfree.pos b hb)⟩

/-! ## First fit -/

/-- The loop takes the first block that is large enough. -/
theorem mallocLoop_take (grants : Nat → Bool) {a b : Nat} {t t' : List Nat}
    (h : Path (ptr s.mem) a (t ++ p :: t') b) (hfit : n ≤ size s.mem p)
    (hsmall : ∀ z ∈ t, size s.mem z < n ∧ z ≠ s.freep) (k : Nat) :
    mallocLoop grants n (t.length + 1 + k) s a (ptr s.mem a) =
      some (take n (last a t) p s) := by
  induction t generalizing a with
  | nil =>
    have hnext : ptr s.mem a = p := h.1
    rw [hnext, List.length_nil, Nat.zero_add, Nat.add_comm, mallocLoop, if_pos hfit]
    rfl
  | cons z t ih =>
    have hz := hsmall z List.mem_cons_self
    have hturn : (z :: t).length + 1 + k = (t.length + 1 + k) + 1 := by
      rw [List.length_cons]
      omega
    rw [h.1, hturn, mallocLoop, if_neg (Nat.not_le.2 hz.1), if_neg hz.2, Links.last_cons]
    exact ih h.2 fun z hz => hsmall z (List.mem_cons_of_mem _ hz)

/-- Either a block is large enough or none is. -/
theorem first_fit (n : Nat) (f : Nat → Nat) (t : List Nat) :
    (∀ z ∈ t, f z < n) ∨ ∃ t₁ p t₂, t = t₁ ++ p :: t₂ ∧ n ≤ f p ∧ ∀ z ∈ t₁, f z < n := by
  induction t with
  | nil => exact .inl (by simp)
  | cons z t ih =>
    by_cases hz : n ≤ f z
    · exact .inr ⟨[], z, t, rfl, hz, by simp⟩
    · have hz : f z < n := Nat.not_le.1 hz
      rcases ih with hall | ⟨t₁, p, t₂, rfl, hp, hsmall⟩
      · exact .inl (List.forall_mem_cons.2 ⟨hz, hall⟩)
      · exact .inr ⟨z :: t₁, p, t₂, rfl, hp, List.forall_mem_cons.2 ⟨hz, hsmall⟩⟩

/-- No two blocks lead to the same one. -/
theorem Ring.inj (hring : Ring base s c) {brk : Nat} (hfree : Free base brk c)
    (hp : p ∈ (root base :: c).map (·.addr)) (hq : q ∈ (root base :: c).map (·.addr))
    (heq : ptr s.mem p = ptr s.mem q) : p = q := by
  have hmap := (Chain.path.1 hring.linked.chain).map_next
  have hnodup : ((root base :: c).map (·.addr)).Nodup := by
    rw [List.nodup_iff_pairwise_ne, List.pairwise_map]
    refine hfree.spaced.imp fun {b b'} h => ?_
    simp only [HEADER] at h
    omega
  refine List.inj_on_of_nodup_map ?_ hp hq heq
  have hrot : (c.map (·.addr) ++ [base]).Perm ((root base :: c).map (·.addr)) :=
    List.perm_append_comm
  exact hmap ▸ hrot.nodup_iff.2 hnodup

/-! ## Taking a block -/

/-- `malloc` has the block `b` of `n` headers, and `c'` are the free blocks. -/
structure Taken (base n : Nat) (s : Heap) (c : List Arena.Block) (s' : Heap)
    (c' : List Arena.Block) (b : Arena.Block) : Prop where
  ring : Ring base s' c'
  free : Free base s.brk c'
  count : b.count = n
  size : size s'.mem b.addr = n
  shares : (Arena.units HEADER (b :: c')).Perm (Arena.units HEADER c)
  within : Within base c s.mem s'.mem
  brk : s'.brk = s.brk
  cores : s'.cores = s.cores

/-- The blocks up to the one before `x`. -/
theorem exists_before (base : Nat) (t : List Arena.Block) : ∃ l q, root base :: t = l ++ [q] :=
  ⟨(root base :: t).dropLast, (root base :: t).getLast (by simp),
    (List.dropLast_concat_getLast (by simp)).symm⟩

/-- All of the block is taken: the one before it leads to the one behind it. -/
theorem unlink_linked {b : Arena.Block} (h : Linked m (l ++ [b] ++ x :: r) n)
    (hspaced : Spaced (l ++ [b] ++ x :: r)) (hnext : ptr m x.addr < 2 ^ 64) :
    Linked (setPtr m b.addr (ptr m x.addr)) (l ++ [b] ++ r) n := by
  have honly : Only [b.addr] m (setPtr m b.addr (ptr m x.addr)) := only_setPtr
  obtain ⟨hlow, hhigh⟩ := Linked.append.1 h
  obtain ⟨hl, hb⟩ := Linked.append.1 hlow
  obtain ⟨hx, -, hr⟩ := linked_cons.1 hhigh
  obtain ⟨hsl, hsr, hcross⟩ := List.pairwise_append.1 hspaced
  have hbr : ∀ z ∈ r, b.addr + HEADER ≤ z.addr := fun z hz =>
    hcross b (by simp) z (List.mem_cons_of_mem _ hz)
  have hlb : ∀ z ∈ l, z.addr + HEADER ≤ b.addr := fun z hz =>
    (List.pairwise_append.1 hsl).2.2 z hz b List.mem_cons_self
  refine Linked.append.2 ⟨Linked.append.2 ⟨?_, linked_cons.2 ⟨?_, ?_, trivial, by simp⟩⟩, ?_⟩
  · refine Linked.frame hl honly fun p hp z hz => ?_
    rw [List.mem_singleton.1 hp]
    exact .inr (hlb z hz)
  · rw [ptr_setPtr_self hnext, hx]
    rfl
  · rw [size_setPtr_self]
    exact hb.size b List.mem_cons_self
  · refine hr.frame honly fun p hp z hz => ?_
    rw [List.mem_singleton.1 hp]
    exact .inl (hbr z hz)

/-- The end of the block is taken, and its size is less. -/
theorem split_linked (h : Linked m (l ++ x :: r) n) (hspaced : Spaced (l ++ x :: r)) {k : Nat}
    (hk : k < x.count) (hr : ∀ y ∈ r, x.stop HEADER ≤ y.addr) (hcount : x.count < 2 ^ 32)
    (hpos : 0 < k) :
    Linked (setSize (setSize m x.addr (x.count - k)) (x.tail HEADER k).addr k)
      (l ++ ⟨x.addr, x.count - k⟩ :: r) n := by
  have honly : Only [x.addr, (x.tail HEADER k).addr] m
      (setSize (setSize m x.addr (x.count - k)) (x.tail HEADER k).addr k) :=
    only_setSize.trans only_setSize
  have hap : Apart (x.tail HEADER k).addr x.addr := .inr (by
    simp only [Arena.Block.tail, HEADER]
    omega)
  obtain ⟨hlow, hhigh⟩ := Linked.append.1 h
  obtain ⟨hx, -, hrest⟩ := linked_cons.1 hhigh
  obtain ⟨-, hsr, hcross⟩ := List.pairwise_append.1 hspaced
  refine Linked.append.2 ⟨?_, linked_cons.2 ⟨?_, ?_, ?_⟩⟩
  · refine Linked.frame hlow honly fun p hp z hz => ?_
    have hzx := hcross z hz x List.mem_cons_self
    rcases List.mem_cons.1 hp with rfl | hp
    · exact .inr hzx
    · rw [List.mem_singleton.1 hp]
      exact .inr (Nat.le_trans hzx (Nat.le_add_right ..))
  · rw [ptr_setSize hap, ptr_setSize_self, hx]
  · rw [size_setSize hap, size_setSize_self (by omega)]
  · refine hrest.frame honly fun p hp z hz => ?_
    rcases List.mem_cons.1 hp with rfl | hp
    · exact .inl ((List.pairwise_cons.1 hsr).1 z hz)
    · rw [List.mem_singleton.1 hp]
      refine .inl ?_
      have hzx := hr z hz
      simp only [Arena.Block.tail, Arena.Block.stop, HEADER] at *
      omega

theorem Free.rest {brk : Nat} {t : List Arena.Block} (h : Free base brk (t ++ x :: r)) {k : Nat}
    (hk : k ≤ x.count) : Free base brk (t ++ (x.rest k ++ r)) := by
  have hmem : ∀ b ∈ t ++ (x.rest k ++ r),
      b ∈ t ++ x :: r ∨ b.addr = x.addr ∧ b.count = x.count - k ∧ k < x.count := by
    intro b hb
    simp only [List.mem_append] at hb
    rcases hb with hb | hb | hb
    · exact .inl (List.mem_append_left _ hb)
    · exact .inr (Arena.mem_rest hb hk)
    · exact .inl (List.mem_append_right _ (List.mem_cons_of_mem _ hb))
  have hx : x ∈ t ++ x :: r := by simp
  refine ⟨Ordered.rest (l := root base :: t) h.ordered, fun b hb => ?_, fun b hb => ?_,
    fun b hb => ?_, h.base_le, h.brk_le⟩
  · rcases hmem b hb with hb | ⟨-, hcount, hlt⟩
    · exact h.pos b hb
    · omega
  · rcases hmem b hb with hb | ⟨haddr, -, -⟩
    · exact h.above b hb
    · rw [haddr]
      exact h.above x hx
  · rcases hmem b hb with hb | ⟨haddr, hcount, -⟩
    · exact h.below b hb
    · have hbelow := h.below x hx
      simp only [Arena.Block.stop, HEADER] at *
      omega

/-- What `take` leaves in memory. -/
theorem take_linked {b : Arena.Block} (hlinked : Linked s.mem (l ++ [b] ++ x :: r) base)
    (hspaced : Spaced (l ++ [b] ++ x :: r)) (hn : n ≤ x.count) (hpos : 0 < n)
    (hr : ∀ y ∈ r, x.stop HEADER ≤ y.addr) (hstop : ∀ y ∈ x :: r, y.stop HEADER ≤ MEMORY)
    (hbase : base ≤ MEMORY) :
    Linked (take n b.addr x.addr s).2.mem (l ++ [b] ++ (x.rest n ++ r)) base ∧
      size (take n b.addr x.addr s).2.mem (x.tail HEADER n).addr = n ∧
      Only [b.addr, x.addr, (x.tail HEADER n).addr] s.mem (take n b.addr x.addr s).2.mem ∧
      (take n b.addr x.addr s).2.freep = b.addr := by
  have hsize : size s.mem x.addr = x.count := hlinked.size x (by simp)
  have hnext : ptr s.mem x.addr = first (r.map (·.addr)) base := hlinked.next
  have hxstop := hstop x List.mem_cons_self
  have hbx : Apart b.addr x.addr :=
    .inl ((List.pairwise_append.1 hspaced).2.2 b (by simp) x List.mem_cons_self)
  unfold take
  rw [hsize]
  by_cases hall : x.count = n
  · rw [if_pos hall]
    have htail : (x.tail HEADER n).addr = x.addr := by
      rw [Arena.Block.tail, hall, Nat.sub_self, Nat.mul_zero, Nat.add_zero]
    have hlt : ptr s.mem x.addr < 2 ^ 64 := by
      have hle := first_le (fun y hy => hstop y (List.mem_cons_of_mem _ hy)) hbase
      rw [hnext]
      simp only [MEMORY] at hle
      omega
    refine ⟨?_, ?_, only_setPtr.mono (by simp), rfl⟩
    · rw [Arena.Block.rest, if_pos hall, List.nil_append]
      exact unlink_linked hlinked hspaced hlt
    · rw [htail, size_setPtr hbx, hsize, hall]
  · rw [if_neg hall]
    have hlt : n < x.count := Nat.lt_of_le_of_ne hn (Ne.symm hall)
    have hcount : x.count < 2 ^ 32 := by
      simp only [Arena.Block.stop, HEADER, MEMORY] at hxstop
      omega
    refine ⟨?_, ?_, ?_, rfl⟩
    · rw [Arena.Block.rest, if_neg hall, List.singleton_append]
      exact split_linked hlinked hspaced hlt hr hcount hpos
    · exact size_setSize_self (by omega)
    · exact (only_setSize.trans only_setSize).mono fun a ha => List.mem_cons_of_mem _ ha

/-- `take` with the block before the one that it takes from. -/
theorem take_spec (hring : Ring base s c) (hfree : Free base s.brk c) (hx : x ∈ c)
    (hn : n ≤ x.count) (hpos : 0 < n) (hprev : prevp ∈ (root base :: c).map (·.addr))
    (hnext : ptr s.mem prevp = x.addr) :
    ∃ c' b, (take n prevp x.addr s).1 = b.addr + HEADER ∧
      Taken base n s c (take n prevp x.addr s).2 c' b := by
  obtain ⟨t, r, rfl⟩ := List.append_of_mem hx
  obtain ⟨l, q, heq⟩ := exists_before base t
  have hlist : root base :: (t ++ x :: r) = l ++ [q] ++ x :: r := by
    rw [← heq]
    rfl
  have hrest : root base :: (t ++ (x.rest n ++ r)) = l ++ [q] ++ (x.rest n ++ r) := by
    rw [← heq]
    rfl
  have hlinked := hring.linked
  have hspaced := hfree.spaced
  have hordered := hfree.ordered
  have hstop := hfree.stop_le
  have hsize : size s.mem x.addr = x.count := hlinked.size x (by simp)
  rw [hlist] at hlinked hspaced hordered hstop
  obtain rfl : prevp = q.addr := by
    refine hring.inj hfree hprev (List.mem_map_of_mem (by rw [hlist]; simp)) ?_
    rw [hnext]
    exact (Linked.append.1 hlinked).1.next.symm
  have hfar : ∀ y ∈ r, x.stop HEADER ≤ y.addr := fun y hy =>
    Nat.le_of_lt ((List.pairwise_cons.1 (List.pairwise_append.1 hordered).2.1).1 y hy)
  have hbase : base ≤ MEMORY := by
    have hle := hfree.base_le
    have hbrk := hfree.brk_le
    omega
  obtain ⟨hlinked', hcount, honly, hfreep⟩ := take_linked hlinked hspaced hn hpos hfar
    (fun y hy => Nat.le_trans (hstop y (List.mem_append_right _ hy)) hfree.brk_le) hbase
  obtain ⟨hfst, hbrk', hcores⟩ := take_ends n q.addr x.addr s
  refine ⟨t ++ (x.rest n ++ r), x.tail HEADER n, by rw [hfst, hsize]; rfl, ⟨?_, ?_⟩,
    hfree.rest hn, rfl, hcount, Arena.units_take hn, ?_, hbrk', hcores⟩
  · rw [hrest]
    exact hlinked'
  · rw [hfreep, hrest]
    exact List.mem_map_of_mem (by simp)
  · refine honly.within fun p hp => ?_
    have hxpos := header_le (hfree.pos x hx)
    simp only [List.mem_cons, List.not_mem_nil, or_false] at hp
    rcases hp with rfl | rfl | rfl
    · have hq : q ∈ root base :: (t ++ x :: r) := by rw [hlist]; simp
      rcases List.mem_cons.1 hq with rfl | hq
      · exact .inl rfl
      · exact .inr ⟨q, hq, Nat.le_refl _, header_le (hfree.pos q hq)⟩
    · exact .inr ⟨x, hx, Nat.le_refl _, hxpos⟩
    · have htail := Arena.stop_tail (w := HEADER) hn
      refine .inr ⟨x, hx, Nat.le_add_right .., ?_⟩
      rw [← htail]
      exact header_le hpos

/-- A free block is large enough: `malloc` takes the end of the first one. -/
theorem scan_take (grants : Nat → Bool) (hring : Ring base s c) (hfree : Free base s.brk c)
    (hpos : 0 < n) (hfit : ∃ b ∈ c, n ≤ b.count) {k : Nat} (hk : c.length + 1 ≤ k) :
    ∃ r c' b, mallocLoop grants n k s s.freep (ptr s.mem s.freep) = some r ∧
      r.1 = b.addr + HEADER ∧ Taken base n s c r.2 c' b := by
  obtain ⟨t, hpath, hperm⟩ := hring.path
  have hvisited : (t ++ [s.freep]).Perm ((root base :: c).map (·.addr)) :=
    List.perm_append_comm.trans hperm
  have hsize : ∀ b ∈ root base :: c, size s.mem b.addr = b.count := hring.linked.size
  have hround : Path (ptr s.mem) s.freep (t ++ [s.freep]) (ptr s.mem s.freep) :=
    Path.append.2 ⟨hpath, rfl⟩
  rcases first_fit n (size s.mem) (t ++ [s.freep]) with hnone | ⟨t₁, p, t₂, heq, hp, hsmall⟩
  · obtain ⟨b, hb, hn⟩ := hfit
    have hb' := List.mem_cons_of_mem (root base) hb
    have hlt := hnone b.addr (hvisited.mem_iff.2 (List.mem_map_of_mem hb'))
    rw [hsize b hb'] at hlt
    omega
  rw [heq] at hround
  have hnodup : (t₁ ++ p :: t₂).Nodup := by
    rw [← heq, hvisited.nodup_iff, List.nodup_iff_pairwise_ne, List.pairwise_map]
    refine hfree.spaced.imp fun {b b'} h => ?_
    simp only [HEADER] at h
    omega
  have hlast : s.freep ∈ p :: t₂ := by
    have hget := congrArg List.getLast? heq
    rw [List.getLast?_concat, List.getLast?_append_of_ne_nil _ (List.cons_ne_nil p t₂)] at hget
    exact List.mem_of_getLast? hget.symm
  have hne : ∀ z ∈ t₁, z ≠ s.freep := by
    rintro z hz rfl
    exact (List.nodup_append.1 hnodup).2.2 _ hz _ hlast rfl
  have hlen : t₁.length + 1 ≤ k := by
    have hcount := hvisited.length_eq
    rw [heq] at hcount
    simp only [List.length_append, List.length_cons, List.length_map] at hcount
    omega
  obtain ⟨j, rfl⟩ := Nat.exists_eq_add_of_le hlen
  have hrun := mallocLoop_take grants hround hp (fun z hz => ⟨hsmall z hz, hne z hz⟩) j
  obtain ⟨x, hx, rfl⟩ : ∃ x ∈ root base :: c, x.addr = p :=
    List.mem_map.1 (hvisited.mem_iff.1 (heq ▸ by simp))
  rw [hsize x hx] at hp
  have hxc : x ∈ c := by
    rcases List.mem_cons.1 hx with rfl | hx
    · exact absurd hp (Nat.not_le.2 hpos)
    · exact hx
  obtain ⟨hto, -⟩ := Path.append.1 hround
  have hprev : last s.freep t₁ ∈ (root base :: c).map (·.addr) := by
    rcases List.mem_cons.1 (Links.last_mem s.freep t₁) with hl | hl
    · rw [hl]
      exact hring.freep_mem
    · exact hvisited.mem_iff.1 (heq ▸ List.mem_append_left _ hl)
  obtain ⟨c', b, hfst, htaken⟩ := take_spec hring hfree hxc hp hpos hprev hto.next_last
  exact ⟨_, c', b, hrun, hfst, htaken⟩

/-! ## More memory -/

theorem Free.grow {brk brk' : Nat} (h : Free base brk c) (hle : brk ≤ brk') (hmax : brk' ≤ MEMORY) :
    Free base brk' c :=
  ⟨h.ordered, h.pos, h.above, fun b hb => Nat.le_trans (h.below b hb) hle,
    Nat.le_trans h.base_le hle, hmax⟩

theorem Free.release {brk : Nat} (h : Free base brk c) (hx : Away base c x)
    (hstop : x.stop HEADER ≤ brk) : Free base brk (Arena.release HEADER x c) := by
  obtain ⟨hbase, hpos, -, hap⟩ := id hx
  have hroot : Arena.Apart HEADER x (root base) := .inr (by
    show base + HEADER * 0 ≤ x.addr
    omega)
  refine ⟨?_, Arena.pos_release hpos h.pos, Arena.le_release hbase h.above,
    Arena.stop_release hstop h.below, h.base_le, h.brk_le⟩
  rw [← release_root hx h.above]
  refine h.ordered.release (fun b hb => ?_) hpos (by decide)
  rcases List.mem_cons.1 hb with rfl | hb
  · exact hroot
  · exact hap b hb

/-- The kernel has granted `nu` headers, and they are free. -/
structure Grown (base nu : Nat) (s : Heap) (c : List Arena.Block) (s' : Heap)
    (c' : List Arena.Block) : Prop where
  ring : Ring base s' c'
  free : Free base s'.brk c'
  shares : (Arena.units HEADER c').Perm (Arena.units HEADER (⟨s.brk, nu⟩ :: c))
  within : Within base (⟨s.brk, nu⟩ :: c) s.mem s'.mem
  brk : s'.brk = s.brk + HEADER * nu
  cores : s'.cores = (s.brk, nu) :: s.cores
  large : ∃ b ∈ c', nu ≤ b.count

/-- The break has moved by `nu` headers, and their number is in the first one. -/
def Heap.withCore (nu : Nat) (s : Heap) : Heap where
  mem := setSize s.mem s.brk nu
  freep := s.freep
  brk := s.brk + HEADER * nu
  cores := (s.brk, nu) :: s.cores

/-- `free` of the new block. -/
theorem free_grown {nu : Nat} (hring : Ring base s c) (hfree : Free base s.brk c) (hnu : 0 < nu)
    (hmax : s.brk + HEADER * nu ≤ MEMORY) :
    ∃ s' c', Umalloc.free (s.brk + HEADER) (s.withCore nu) = some s' ∧
      Grown base nu s c s' c' := by
  have hbefore : ∀ b ∈ root base :: c, b.addr + HEADER ≤ s.brk := by
    intro b hb
    rcases List.mem_cons.1 hb with rfl | hb
    · exact hfree.base_le
    · exact Nat.le_trans (header_le (hfree.pos b hb)) (hfree.below b hb)
  have honly : Only [s.brk] s.mem (setSize s.mem s.brk nu) := only_setSize
  have hring' : Ring base (s.withCore nu) c := by
    refine ⟨hring.linked.frame honly fun p hp b hb => ?_, hring.freep_mem⟩
    rw [List.mem_singleton.1 hp]
    exact .inr (hbefore b hb)
  have hx : Away base c ⟨s.brk, nu⟩ :=
    ⟨hfree.base_le, hnu, hmax, fun b hb => .inr (hfree.below b hb)⟩
  have hgrow := hfree.grow (Nat.le_add_right ..) hmax
  obtain ⟨s', hrun, hring₁, hbrk, hcores, honly₁⟩ := free_spec hring' hgrow hx (by
    refine size_setSize_self ?_
    simp only [HEADER, MEMORY] at hmax
    omega)
  refine ⟨s', Arena.release HEADER ⟨s.brk, nu⟩ c, hrun, hring₁, ?_, Arena.units_release, ?_, hbrk, hcores,
    Arena.exists_large ..⟩
  · rw [hbrk]
    exact hgrow.release hx (Nat.le_refl _)
  · have hnew := header_le (x := ⟨s.brk, nu⟩) hnu
    refine (honly.trans honly₁).within fun p hp => ?_
    have hp : p = s.brk ∨ p ∈ (root base :: c).map (·.addr) := by
      simpa only [List.singleton_append, List.mem_cons, or_self_left] using hp
    rcases hp with rfl | hp
    · exact .inr ⟨⟨s.brk, nu⟩, List.mem_cons_self, Nat.le_refl _, hnew⟩
    · obtain ⟨b, hb, rfl⟩ := List.mem_map.1 hp
      rcases List.mem_cons.1 hb with rfl | hb
      · exact .inl rfl
      · exact .inr ⟨b, List.mem_cons_of_mem _ hb, Nat.le_refl _, header_le (hfree.pos b hb)⟩

/-- The kernel refuses, or the list grows. -/
theorem morecore_cases (grants : Nat → Bool) {nbytes : Nat} (hfits : Umalloc.Fits nbytes)
    (hring : Ring base s c) (hfree : Free base s.brk c) :
    (sbrk grants (request nbytes) s = none ∧ morecore grants (units nbytes) s = some (0, s)) ∨
      ∃ s' c', morecore grants (units nbytes) s = some (s'.freep, s') ∧
        Grown base (asked nbytes) s c s' c' := by
  have hle : 4096 ≤ asked nbytes := Nat.le_max_left ..
  have hint : (request nbytes).toInt = asked nbytes * HEADER := by
    have hlt : asked nbytes * HEADER < 2 ^ 31 := hfits
    rw [request, BitVec.toInt_ofNat', Int.bmod]
    simp only [HEADER] at *
    push_cast
    omega
  have hpos : 0 < (request nbytes).toInt := by
    simp only [HEADER] at hint
    omega
  unfold morecore
  simp only [asked_eq]
  rw [show BitVec.ofNat 32 (asked nbytes * HEADER) = request nbytes from rfl]
  by_cases hgrant : grants s.brk = true ∧ s.brk + (request nbytes).toInt ≤ MEMORY
  · right
    have hcall : sbrk grants (request nbytes) s =
        some (s.brk, { s with brk := s.brk + HEADER * asked nbytes }) := by
      unfold sbrk resized
      rw [if_neg fun h => h.2 hgrant, if_neg (by omega)]
      simp only [HEADER] at *
      congr 3
      omega
    have hmax : s.brk + HEADER * asked nbytes ≤ MEMORY := by
      have hroom := hgrant.2
      simp only [HEADER, MEMORY] at *
      omega
    have hmapped : s.brk + 12 ≤ mapped (s.brk + HEADER * asked nbytes) := by
      simp only [mapped, HEADER]
      omega
    obtain ⟨s', c', hrun, hgrown⟩ := free_grown hring hfree (by omega : 0 < asked nbytes) hmax
    refine ⟨s', c', ?_, hgrown⟩
    rw [hcall]
    simp only [Heap.withCore] at hrun
    simp only [if_pos hmapped, hrun, Option.map_some]
  · left
    have hcall : sbrk grants (request nbytes) s = none := by
      unfold sbrk
      rw [if_pos ⟨hpos, hgrant⟩]
    rw [hcall]
    exact ⟨rfl, rfl⟩

/-! ## What malloc does -/

/-- How a call of `malloc` ends: the kernel refuses, or a block is taken, maybe
after the list has grown. -/
inductive Malloced (base : Nat) (grants : Nat → Bool) (nbytes : Nat) (s : Heap)
    (c : List Arena.Block) : Nat → Heap → Prop
  | refused (hsmall : ∀ b ∈ c, b.count < units nbytes)
      (hnone : sbrk grants (request nbytes) s = none) : Malloced base grants nbytes s c 0 s
  | found {c' : List Arena.Block} {b : Arena.Block} {s' : Heap}
      (htaken : Taken base (units nbytes) s c s' c' b) :
      Malloced base grants nbytes s c (b.addr + HEADER) s'
  | grown {c₁ c' : List Arena.Block} {b : Arena.Block} {s₁ s' : Heap}
      (hsmall : ∀ b ∈ c, b.count < units nbytes)
      (hgrown : Grown base (asked nbytes) s c s₁ c₁)
      (htaken : Taken base (units nbytes) s₁ c₁ s' c' b) :
      Malloced base grants nbytes s c (b.addr + HEADER) s'

/-- `malloc` returns, and this is what it has done. -/
theorem malloc_cases (grants : Nat → Bool) {nbytes : Nat} (hfits : Umalloc.Fits nbytes)
    (hbase : 0 < base) (hring : Ring base (init base s) c) (hfree : Free base s.brk c) :
    ∃ p s', malloc base grants nbytes s = some (p, s') ∧
      Malloced base grants nbytes (init base s) c p s' := by
  have hlen := hfree.length_lt
  have hpos : 0 < units nbytes := Nat.succ_pos _
  have hfree : Free base (init base s).brk c := init_brk base s ▸ hfree
  have hrun : malloc base grants nbytes s = mallocLoop grants (units nbytes) turns (init base s)
      (init base s).freep (ptr (init base s).mem (init base s).freep) := rfl
  rw [hrun]
  generalize init base s = s at *
  have hturns : c.length + 1 ≤ turns := by
    simp only [turns, HEADER, MEMORY] at *
    omega
  by_cases hfit : ∃ b ∈ c, units nbytes ≤ b.count
  · obtain ⟨r, c', b, hloop, hfst, htaken⟩ := scan_take grants hring hfree hpos hfit hturns
    exact ⟨r.1, r.2, hloop, hfst ▸ .found htaken⟩
  have hsmall : ∀ b ∈ c, b.count < units nbytes := fun b hb =>
    Nat.not_le.1 fun hle => hfit ⟨b, hb, hle⟩
  obtain ⟨t, hpath, hperm⟩ := hring.path
  have htlen : t.length = c.length := by simpa using hperm.length_eq
  obtain ⟨k, hk⟩ := Nat.exists_eq_add_of_le (htlen ▸ hturns)
  have hout : s.freep ∉ t := by
    have hnodup : (s.freep :: t).Nodup := by
      rw [hperm.nodup_iff, List.nodup_iff_pairwise_ne, List.pairwise_map]
      refine hfree.spaced.imp fun {b b'} h => ?_
      simp only [HEADER] at h
      omega
    exact (List.nodup_cons.1 hnodup).1
  rw [hk]
  rcases mallocLoop_scan grants (units nbytes) k hpath hout with ⟨-, p, hp, hlarge, -⟩ | ⟨-, heq⟩
  · obtain ⟨b, hb, rfl⟩ := List.mem_map.1 ((List.perm_append_comm.trans hperm).mem_iff.1 hp)
    rw [hring.linked.size b hb] at hlarge
    rcases List.mem_cons.1 hb with rfl | hb
    · exact absurd hlarge (Nat.not_le.2 hpos)
    · exact absurd hlarge (Nat.not_le.2 (hsmall b hb))
  rw [heq]
  rcases morecore_cases grants hfits hring hfree with ⟨hnone, hmore⟩ | ⟨s₁, c₁, hmore, hgrown⟩
  · rw [hmore]
    exact ⟨0, s, rfl, .refused hsmall hnone⟩
  · have hne : s₁.freep ≠ 0 := by
      obtain ⟨b, hb, heq⟩ := List.mem_map.1 hgrown.ring.freep_mem
      have hle := hgrown.free.root_le b hb
      omega
    have hlen₁ := hgrown.free.length_lt
    obtain ⟨b, hb, hlarge⟩ := hgrown.large
    have hunits : units nbytes ≤ asked nbytes := Nat.le_max_right ..
    obtain ⟨r, c', b', hloop, hfst, htaken⟩ := scan_take (k := k) grants hgrown.ring hgrown.free
      hpos ⟨b, hb, Nat.le_trans hunits hlarge⟩ (by
        simp only [turns, HEADER, MEMORY] at *
        omega)
    rw [hmore, Option.bind_some, if_neg hne, hloop]
    exact ⟨r.1, r.2, rfl, hfst ▸ .grown hsmall hgrown htaken⟩

end Xv6.Umalloc
