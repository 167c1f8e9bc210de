import Xv6.Umalloc.Code
import Xv6.Vm.Grow
import Mathlib.Data.List.Pairwise

/-!
# What malloc returns is granted

`malloc` asks for as many headers as it wants to record, but `sbrk` sees the
number of bytes as an `int`.
-/

namespace Xv6.Umalloc

open Links (Path)
open Words (load store load_store_self load_store_of_disjoint load_store_of_lt)

/-- Two headers do not overlap. -/
def Apart (p q : Nat) : Prop := p + HEADER ≤ q ∨ q + HEADER ≤ p

variable {m : Words.Mem} {p q v bp : Nat}

theorem Apart.symm (h : Apart p q) : Apart q p := Or.symm h

instance : Std.Symm Apart := ⟨fun _ _ => Apart.symm⟩

theorem ptr_setPtr_self (hv : v < 2 ^ 64) : ptr (setPtr m p v) p = v :=
  load_store_of_lt (by omega)

theorem size_setSize_self (hv : v < 2 ^ 32) : size (setSize m p v) p = v :=
  load_store_of_lt (by omega)

@[simp] theorem size_setPtr_self : size (setPtr m p v) p = size m p :=
  load_store_of_disjoint (.inl (Nat.le_refl _))

@[simp] theorem ptr_setSize_self : ptr (setSize m p v) p = ptr m p :=
  load_store_of_disjoint (.inr (Nat.le_refl _))

theorem ptr_setPtr (h : Apart p q) : ptr (setPtr m p v) q = ptr m q :=
  load_store_of_disjoint (by simp only [Apart, HEADER] at h; omega)

theorem size_setPtr (h : Apart p q) : size (setPtr m p v) q = size m q :=
  load_store_of_disjoint (by simp only [Apart, HEADER] at h; omega)

theorem ptr_setSize (h : Apart p q) : ptr (setSize m p v) q = ptr m q :=
  load_store_of_disjoint (by simp only [Apart, HEADER] at h; omega)

theorem size_setSize (h : Apart p q) : size (setSize m p v) q = size m q :=
  load_store_of_disjoint (by simp only [Apart, HEADER] at h; omega)

/-- The free blocks are in a circle behind `freep`, and in memory that the
kernel has granted. -/
structure FreeList (s : Heap) (c : List Nat) : Prop where
  path : Path (ptr s.mem) s.freep c s.freep
  below : ∀ p ∈ s.freep :: c, p + HEADER * max 1 (size s.mem p) ≤ s.brk
  apart : (s.freep :: c).Pairwise Apart
  pos : ∀ p ∈ s.freep :: c, 0 < p
  brk_le : s.brk ≤ MEMORY

/-- The state before the first request, or one with a free list. -/
inductive AllocState (base : Nat) (s : Heap) : Prop
  | fresh (h : s.freep = 0) (hpos : 0 < base) (hbase : base + HEADER ≤ s.brk)
      (hbrk : s.brk ≤ MEMORY)
  | listed (c : List Nat) (h : FreeList s c)

/-- `malloc` before its loop. -/
def init (base : Nat) (s : Heap) : Heap :=
  if s.freep = 0 then
    { s with mem := setSize (setPtr s.mem base base) base 0, freep := base }
  else
    s

/-- What `malloc(nbytes)` returns, if it is not NULL, is granted, and so is the
block that it has recorded. -/
def Granted (base : Nat) (grants : Nat → Bool) (nbytes : Nat) (s : Heap) : Prop :=
  ∀ q s', malloc base grants nbytes s = some (q, s') → q ≠ 0 →
    q + nbytes ≤ s'.brk ∧
      ∃ new, s'.cores = new ++ s.cores ∧ ∀ c ∈ new, c.1 + HEADER * c.2 ≤ s'.brk

variable {s : Heap} {c : List Nat}

/-- `growproc` as `sbrk` sees it. -/
theorem growproc_resized {m : Mem} {ts : List U64} {p : Vm.Image} (ha : Alive m p ts)
    (n : BitVec 32) : ∃ r m' ts', Vm.growproc p n m = .ok (r, m') ∧ Alive m' (r.getD p) ts' ∧
      (r = none → 0 < n.toInt) ∧ ∀ p', r = some p' → p'.sz.toNat = resized p.sz.toNat n := by
  unfold resized
  by_cases hpos : 0 < n.toInt
  · obtain ⟨r, m', ts', hrun, hres, hasked⟩ := growproc_more ha hpos
    refine ⟨r, m', ts', hrun, hres.alive, fun _ => hpos, ?_⟩
    rintro p' rfl
    have hsum : (p'.sz.toNat : Int) = p.sz.toNat + n.toInt := hasked
    split <;> omega
  by_cases hsz : p.sz.toNat < -n.toInt
  · refine ⟨some p, m, ts, growproc_below ha hsz, ha, by simp, ?_⟩
    rintro p' ⟨⟩
    rw [if_pos (by omega)]
  by_cases hneg : n.toInt < 0
  · obtain ⟨p', m', ts', hrun, hres, hsum⟩ := growproc_less ha hneg (by omega)
    refine ⟨some p', m', ts', hrun, hres.alive, by simp, ?_⟩
    rintro p'' ⟨⟩
    split <;> omega
  · have hrun : Vm.growproc p n m = .ok (some p, m) := by
      unfold Vm.growproc
      rw [if_neg hpos, if_neg hneg]
      rfl
    refine ⟨some p, m, ts, hrun, ha, by simp, ?_⟩
    rintro p' ⟨⟩
    split <;> omega

/-- `sbrk` of the kernel answers the old size or `-1`, and the size of the
process is then as in `resized`. -/
theorem sysSbrk_resized {m : Mem} {ts : List U64} {p : Vm.Image} (ha : Alive m p ts)
    (n : BitVec 32) : ∃ r m', Vm.sysSbrk p n m = .ok (r, m') ∧
      (r = (-1, p) ∧ 0 < n.toInt ∨
        r.1 = p.sz ∧ r.2.sz.toNat = resized p.sz.toNat n ∧ r.2.sz.toNat ≤ MEMORY) := by
  obtain ⟨r, m', ts', hrun, halive, hnone, hsome⟩ := growproc_resized ha n
  have hpages := halive.pages_le
  cases r with
  | none => exact ⟨(-1, p), m', Vm.bind_ok hrun, .inl ⟨rfl, hnone rfl⟩⟩
  | some p' =>
    refine ⟨(p.sz, p'), m', Vm.bind_ok hrun, .inr ⟨rfl, hsome p' rfl, ?_⟩⟩
    simp only [pages, Option.getD_some, MEMORY] at *
    omega

/-! ## The circle -/

/-- Links that only go up do not lead back. -/
theorem exists_descent {a b : Nat} {l : List Nat} (h : Path (ptr m) a l b) (hle : b ≤ a) :
    ∃ x ∈ a :: l, ptr m x ≤ x := by
  by_contra hup
  simp only [not_exists, not_and, Nat.not_le] at hup
  have hlt : a < b := by
    clear hle
    induction l generalizing a with
    | nil =>
      have hnext : ptr m a = b := h
      exact hnext ▸ hup a (by simp)
    | cons x l ih =>
      have hax : a < x := h.1 ▸ hup a (by simp)
      have hxb := ih h.2 fun y hy => hup y (List.mem_cons_of_mem _ hy)
      omega
  omega

theorem Path.next_mem {a b x : Nat} {l : List Nat} (h : Path (ptr m) a l b) (hx : x ∈ a :: l) :
    ptr m x ∈ l ++ [b] := by
  induction l generalizing a with
  | nil =>
    have hnext : ptr m a = b := h
    simp_all
  | cons y l ih =>
    rcases List.mem_cons.1 hx with rfl | hx
    · simp [h.1]
    · exact List.mem_cons_of_mem _ (ih h.2 hx)

/-- A block above all the others belongs behind the last one. -/
theorem search_above {a b n : Nat} {l : List Nat} (h : Path (ptr m) a l b)
    (hbp : ∀ x ∈ a :: l ++ [b], x < bp) (hdown : ∃ x ∈ a :: l, ptr m x ≤ x) (hn : l.length < n) :
    ∃ p ∈ a :: l, search m bp n a = some p := by
  induction l generalizing a n with
  | nil =>
    obtain ⟨n, rfl⟩ : ∃ k, n = k + 1 := ⟨n - 1, by simp at hn; omega⟩
    have hnext : ptr m a = b := h
    have ha := hbp a (by simp)
    have hb := hbp b (by simp)
    have hle : ptr m a ≤ a := by simpa using hdown
    refine ⟨a, by simp, ?_⟩
    rw [search, if_neg (by omega), if_pos (by omega)]
  | cons y l ih =>
    obtain ⟨n, rfl⟩ : ∃ k, n = k + 1 := ⟨n - 1, by simp at hn; omega⟩
    have ha := hbp a (by simp)
    have hy := hbp y (by simp)
    have hnext : ptr m a = y := h.1
    rw [search, if_neg (by omega)]
    by_cases hle : ptr m a ≤ a
    · exact ⟨a, by simp, if_pos (by omega)⟩
    · rw [if_neg (by omega), hnext]
      have hdown' : ∃ x ∈ y :: l, ptr m x ≤ x := by
        obtain ⟨x, hx, hxle⟩ := hdown
        rcases List.mem_cons.1 hx with rfl | hx
        · exact absurd hxle hle
        · exact ⟨x, hx, hxle⟩
      obtain ⟨p, hp, hsearch⟩ := ih h.2 (fun x hx => hbp x (List.mem_cons_of_mem _ hx)) hdown'
        (by simp at hn; omega)
      exact ⟨p, List.mem_cons_of_mem _ hp, hsearch⟩

/-- Headers that do not overlap are not many. -/
theorem length_le_of_apart {l : List Nat} {b : Nat} (hl : l.Pairwise Apart)
    (hb : ∀ p ∈ l, p + HEADER ≤ b) : l.length ≤ b / HEADER := by
  have hnodup : (l.map (· / HEADER)).Nodup := by
    rw [List.nodup_iff_pairwise_ne, List.pairwise_map]
    refine hl.imp fun {p q} h => ?_
    simp only [Apart, HEADER] at h
    simp only [HEADER]
    omega
  have hsub : (l.map (· / HEADER)) ⊆ List.range (b / HEADER) := by
    intro x hx
    obtain ⟨p, hp, rfl⟩ := List.mem_map.1 hx
    have := hb p hp
    simp only [List.mem_range, HEADER] at *
    omega
  simpa using (hnodup.subperm hsub).length_le

/-! ## A new block -/

/-- The free list `c'` of `s'` has a block at `x` that goes to the end of the
new core, and else the blocks that it had in `s`. -/
structure Extended (s : Heap) (c : List Nat) (hp nu : Nat) (s' : Heap) (c' : List Nat) (x : Nat) :
    Prop where
  path : Path (ptr s'.mem) s'.freep c' s'.freep
  fresh : s'.freep ∉ c'
  length_le : c'.length ≤ c.length + 1
  mem : x ∈ s'.freep :: c'
  le : x ≤ hp
  ends : x + HEADER * size s'.mem x = hp + HEADER * nu
  kept : ∀ y ∈ s'.freep :: c', y ≠ x → y ∈ s.freep :: c ∧ size s'.mem y = size s.mem y
  freep_mem : s'.freep ∈ s.freep :: c

theorem FreeList.block_lt (h : FreeList s c) (hp : p ∈ s.freep :: c) :
    p + HEADER ≤ s.brk ∧ p + HEADER * size s.mem p ≤ s.brk ∧ size s.mem p < 2 ^ 24 := by
  have hb := h.below p hp
  have hm := h.brk_le
  simp only [HEADER, MEMORY] at *
  omega

theorem FreeList.apart_of_ne (h : FreeList s c) (hp : p ∈ s.freep :: c) (hq : q ∈ s.freep :: c)
    (hne : p ≠ q) : Apart p q :=
  h.apart.forall hp hq hne

theorem FreeList.length_lt (h : FreeList s c) : c.length + 1 ≤ MEMORY / HEADER := by
  have hlen := length_le_of_apart h.apart fun p hp => (h.block_lt hp).1
  have hbrk := h.brk_le
  simp only [List.length_cons, HEADER, MEMORY] at *
  omega

/-- The memory of a new core that is not in the list yet. -/
structure Loose (s : Heap) (c : List Nat) (nu : Nat) (m : Words.Mem) : Prop where
  ptr : ∀ p ∈ s.freep :: c, ptr m p = ptr s.mem p
  size : ∀ p ∈ s.freep :: c, size m p = size s.mem p
  core : Umalloc.size m s.brk = nu

/-- The block before the new one is joined to it, or it links to it. -/
theorem joinLower_above {nu : Nat} (h : FreeList s c) (hnu : nu < 2 ^ 31) (hm : Loose s c nu m)
    (hp : p ∈ s.freep :: c) (s' : Heap)
    (hmem : s'.mem = joinLower (setPtr m s.brk (ptr m p)) s.brk p) (hfreep : s'.freep = p) :
    ∃ c' x, Extended s c s.brk nu s' c' x := by
  obtain ⟨c', hc', hperm⟩ := h.path.exists_rotation hp
  have hin : ∀ y ∈ p :: c', y ∈ s.freep :: c := fun y hy => hperm.subset hy
  have hlen : c'.length = c.length := by simpa using hperm.length_eq
  have hnodup : (p :: c').Nodup := by
    rw [hperm.nodup_iff, List.nodup_iff_pairwise_ne]
    refine h.apart.imp fun {p q} hpq => ?_
    simp only [Apart, HEADER] at hpq
    omega
  have hapart : ∀ y ∈ s.freep :: c, Apart s.brk y := fun y hy => .inr (h.block_lt hy).1
  have hlt := h.block_lt hp
  have hnext : ptr s.mem p < 2 ^ 64 := by
    have hmem : ptr s.mem p ∈ s.freep :: c := by
      simpa [or_comm] using Path.next_mem h.path hp
    have := (h.block_lt hmem).1
    have := h.brk_le
    simp only [HEADER, MEMORY] at *
    omega
  have hmp := hm.ptr p hp
  have hsize : ∀ y ∈ s.freep :: c, size (setPtr m s.brk (ptr m p)) y = size s.mem y :=
    fun y hy => by rw [size_setPtr (hapart y hy), hm.size y hy]
  have hptr : ∀ y ∈ s.freep :: c, ptr (setPtr m s.brk (ptr m p)) y = ptr s.mem y :=
    fun y hy => by rw [ptr_setPtr (hapart y hy), hm.ptr y hy]
  have hcore : size (setPtr m s.brk (ptr m p)) s.brk = nu := by rw [size_setPtr_self, hm.core]
  have hlink : ptr (setPtr m s.brk (ptr m p)) s.brk = ptr s.mem p := by
    rw [hmp, ptr_setPtr_self hnext]
  have hne : ∀ y ∈ c', y ≠ p := fun y hy heq => (List.nodup_cons.1 hnodup).1 (heq ▸ hy)
  have hfar : ∀ y ∈ c', Apart p y := fun y hy =>
    h.apart_of_ne hp (hin y (List.mem_cons_of_mem _ hy)) (hne y hy).symm
  rw [joinLower] at hmem
  generalize setPtr m s.brk (ptr m p) = m₁ at *
  simp only [hsize p hp, hcore, ptr_setSize (hapart p hp).symm, hlink] at hmem
  subst hfreep
  by_cases hjoin : s'.freep + HEADER * size s.mem s'.freep = s.brk
  · rw [if_pos hjoin] at hmem
    have hptr' : ∀ y ∈ c', ptr s'.mem y = ptr s.mem y := fun y hy => by
      rw [hmem, ptr_setPtr (hfar y hy), ptr_setSize (hfar y hy),
        hptr y (hin y (List.mem_cons_of_mem _ hy))]
    have hsize' : size s'.mem s'.freep = size s.mem s'.freep + nu := by
      rw [hmem, size_setPtr_self, size_setSize_self (by omega)]
    refine ⟨c', s'.freep, hc'.congr (by rw [hmem, ptr_setPtr_self hnext]) hptr',
      (List.nodup_cons.1 hnodup).1, by omega,
      by simp, by omega, ?_, ?_, hp⟩
    · rw [hsize', Nat.mul_add]
      omega
    · rintro y hy hyp
      have hy' : y ∈ c' := by simpa [hyp] using hy
      refine ⟨hin y hy, ?_⟩
      rw [hmem, size_setPtr (hfar y hy'), size_setSize (hfar y hy'), hsize y (hin y hy)]
  · rw [if_neg hjoin] at hmem
    have hptr' : ∀ y ∈ c', ptr s'.mem y = ptr s.mem y := fun y hy => by
      rw [hmem, ptr_setPtr (hfar y hy), hptr y (hin y (List.mem_cons_of_mem _ hy))]
    have hbrk : s.brk < 2 ^ 64 := by
      have := h.brk_le
      simp only [MEMORY] at this
      omega
    have hptrBrk : ptr s'.mem s.brk = ptr s.mem s'.freep := by
      rw [hmem, ptr_setPtr (hapart _ hp).symm, hlink]
    refine ⟨s.brk :: c', s.brk, ⟨by rw [hmem, ptr_setPtr_self hbrk], hc'.congr hptrBrk hptr'⟩,
      ?_, by simp [hlen], by simp, Nat.le_refl _, ?_, ?_, hp⟩
    · have hne : s'.freep ≠ s.brk := by
        simp only [HEADER] at hlt
        omega
      simp [hne, (List.nodup_cons.1 hnodup).1]
    · rw [hmem, size_setPtr (hapart _ hp).symm, hcore]
    · rintro y hy hyb
      have hy' : y ∈ s'.freep :: c' := by simpa [hyb] using hy
      refine ⟨hin y hy', ?_⟩
      rcases List.mem_cons.1 hy' with rfl | hyc
      · rw [hmem, size_setPtr_self, hsize _ hp]
      · rw [hmem, size_setPtr (hfar y hyc), hsize y (hin y hy')]

/-- The block that `morecore` frees is behind all the others. -/
theorem free_core {nu : Nat} (h : FreeList s c) (hnu : nu < 2 ^ 31) (s₀ : Heap)
    (hmem : s₀.mem = setSize s.mem s.brk nu) (hfreep : s₀.freep = s.freep) :
    ∃ s' c' x, free (s.brk + HEADER) s₀ = some s' ∧ s'.brk = s₀.brk ∧ s'.cores = s₀.cores ∧
      Extended s c s.brk nu s' c' x := by
  have hapart : ∀ p ∈ s.freep :: c, Apart s.brk p := fun p hp => .inr (h.block_lt hp).1
  have hm : Loose s c nu s₀.mem := by
    refine ⟨fun p hp => ?_, fun p hp => ?_, ?_⟩
    · rw [hmem, ptr_setSize (hapart p hp)]
    · rw [hmem, size_setSize (hapart p hp)]
    · rw [hmem, size_setSize_self (by omega)]
  have hpath : Path (ptr s₀.mem) s.freep c s.freep :=
    h.path.congr (hm.ptr _ (by simp)) fun z hz => hm.ptr z (List.mem_cons_of_mem _ hz)
  have hlt : ∀ p ∈ s.freep :: c, p < s.brk := fun p hp => by
    have := (h.block_lt hp).1
    simp only [HEADER] at this
    omega
  obtain ⟨p, hp, hsearch⟩ : ∃ p ∈ s.freep :: c, search s₀.mem s.brk turns s.freep = some p := by
    refine search_above hpath (fun x hx => ?_) (exists_descent hpath (Nat.le_refl _)) ?_
    · exact hlt x (by simpa [or_comm, or_assoc] using hx)
    · have hlen := h.length_lt
      simp only [HEADER, MEMORY] at hlen
      simp only [turns, MEMORY]
      omega
  have hnext : ptr s₀.mem p < s.brk :=
    hlt _ (by simpa [or_comm] using Path.next_mem hpath hp)
  -- nothing is above the new block
  have hupper : joinUpper s₀.mem s.brk p = setPtr s₀.mem s.brk (ptr s₀.mem p) := by
    rw [joinUpper, if_neg]
    simp only [HEADER] at *
    omega
  obtain ⟨m', hm'⟩ : ∃ m', m' = joinLower (setPtr s₀.mem s.brk (ptr s₀.mem p)) s.brk p := ⟨_, rfl⟩
  obtain ⟨c', x, hext⟩ := joinLower_above h hnu hm hp { s₀ with mem := m', freep := p } hm' rfl
  refine ⟨{ s₀ with mem := m', freep := p }, c', x, ?_, rfl, rfl, hext⟩
  simp only [free, Nat.add_sub_cancel, hfreep, hsearch, Option.map_some, hupper, hm']

/-! ## The loop of `malloc` -/

/-- The loop goes once around the list.  It takes the first block that is large
enough, or it asks for more. -/
theorem mallocLoop_scan (grants : Nat → Bool) (nunits n : Nat) {a : Nat} {l : List Nat}
    (h : Path (ptr s.mem) a l s.freep) (hout : s.freep ∉ l) :
    (∃ prevp, ∃ p ∈ l ++ [s.freep], nunits ≤ size s.mem p ∧
        mallocLoop grants nunits (l.length + 1 + n) s a (ptr s.mem a) =
          some (take nunits prevp p s)) ∨
      ((∀ p ∈ l ++ [s.freep], size s.mem p < nunits) ∧
        mallocLoop grants nunits (l.length + 1 + n) s a (ptr s.mem a) =
          (morecore grants nunits s).bind fun r =>
            if r.1 = 0 then some (0, r.2)
            else mallocLoop grants nunits n r.2 r.1 (ptr r.2.mem r.1)) := by
  induction l generalizing a with
  | nil =>
    have hnext : ptr s.mem a = s.freep := h
    rw [hnext, List.length_nil, Nat.zero_add, Nat.add_comm, mallocLoop]
    by_cases hfit : nunits ≤ size s.mem s.freep
    · exact .inl ⟨a, s.freep, by simp, hfit, if_pos hfit⟩
    · refine .inr ⟨by simpa using hfit, ?_⟩
      rw [if_neg hfit, if_pos rfl]
      rcases morecore grants nunits s with _ | ⟨_ | _, _⟩ <;> rfl
  | cons x l ih =>
    have hne : x ≠ s.freep := fun heq => hout (heq ▸ List.mem_cons_self)
    have hturn : (x :: l).length + 1 + n = (l.length + 1 + n) + 1 := by
      simp only [List.length_cons]
      omega
    rw [h.1, hturn, mallocLoop]
    by_cases hfit : nunits ≤ size s.mem x
    · exact .inl ⟨a, x, by simp, hfit, if_pos hfit⟩
    · rw [if_neg hfit, if_neg hne]
      rcases ih h.2 (fun hmem => hout (List.mem_cons_of_mem _ hmem)) with
        ⟨prevp, p, hp, hsize, hrun⟩ | ⟨hsmall, hrun⟩
      · exact .inl ⟨prevp, p, List.mem_cons_of_mem _ hp, hsize, hrun⟩
      · refine .inr ⟨fun p hp => ?_, hrun⟩
        rcases List.mem_cons.1 hp with rfl | hp
        · exact Nat.lt_of_not_le hfit
        · exact hsmall p hp

/-- What is taken is at the end of the block. -/
theorem take_ends (nunits prevp p : Nat) (s : Heap) :
    (take nunits prevp p s).1 = p + HEADER * (size s.mem p - nunits) + HEADER ∧
      (take nunits prevp p s).2.brk = s.brk ∧ (take nunits prevp p s).2.cores = s.cores := by
  unfold take
  by_cases heq : size s.mem p = nunits
  · rw [if_pos heq, heq, Nat.sub_self, Nat.mul_zero, Nat.add_zero]
    exact ⟨rfl, rfl, rfl⟩
  · rw [if_neg heq]
    exact ⟨rfl, rfl, rfl⟩

/-- After `morecore` the block that it has made is the only one to be large
enough. -/
theorem Extended.scan (grants : Nat → Bool) {s' : Heap} {c' : List Nat} {hp nu nunits n x : Nat}
    (h : Extended s c hp nu s' c' x) (hsmall : ∀ p ∈ s.freep :: c, size s.mem p < nunits)
    (hle : nunits ≤ nu) (hn : c'.length + 1 ≤ n) :
    ∃ r, mallocLoop grants nunits n s' s'.freep (ptr s'.mem s'.freep) = some r ∧
      r.1 + HEADER * nunits = hp + HEADER * nu + HEADER ∧ r.2.brk = s'.brk ∧
      r.2.cores = s'.cores := by
  obtain ⟨k, rfl⟩ := Nat.exists_eq_add_of_le hn
  have hends := h.ends
  have hxle := h.le
  have hx : nunits ≤ size s'.mem x := by
    simp only [HEADER] at hends
    omega
  rcases mallocLoop_scan grants nunits k h.path h.fresh with
    ⟨prevp, p, hp, hfit, hrun⟩ | ⟨hnone, -⟩
  · have hpx : p = x := by
      by_contra hne
      obtain ⟨hin, hsize⟩ := h.kept p (by simpa [or_comm] using hp) hne
      have := hsmall p hin
      omega
    subst hpx
    obtain ⟨hq, hbrk, hcores⟩ := take_ends nunits prevp p s'
    refine ⟨_, hrun, ?_, hbrk, hcores⟩
    rw [hq]
    simp only [HEADER] at *
    omega
  · have := hnone x (by simpa [or_comm] using h.mem)
    omega

/-! ## What is granted -/

/-- What `malloc` asks for: it records so many headers, and `sbrk` gets the
number of bytes. -/
def asked (nbytes : Nat) : Nat := max 4096 (units nbytes)

def request (nbytes : Nat) : BitVec 32 := BitVec.ofNat 32 (asked nbytes * HEADER)

/-- A free block is large enough. -/
def Fit (base nbytes : Nat) (s : Heap) (c : List Nat) : Prop :=
  ∃ p ∈ (init base s).freep :: c, units nbytes ≤ size (init base s).mem p

/-- The request fits in an `int`, or it is not needed, or the kernel refuses
what it sees of it, or the header of the new block is not in memory. -/
def AsksRight (base : Nat) (grants : Nat → Bool) (nbytes : Nat) (s : Heap) (c : List Nat) : Prop :=
  Fit base nbytes s c ∨ asked nbytes * HEADER < 2 ^ 31 ∨ sbrk grants (request nbytes) s = none ∨
    mapped (resized s.brk (request nbytes)) < s.brk + 12

theorem units_le (nbytes : Nat) : nbytes + HEADER ≤ HEADER * units nbytes := by
  simp only [units, HEADER]
  omega

/-- The loop after `malloc` has looked at every free block. -/
theorem malloc_scan {base : Nat} (h : FreeList (init base s) c) (grants : Nat → Bool)
    (nbytes : Nat) :
    (∃ prevp, ∃ p ∈ (init base s).freep :: c, units nbytes ≤ size (init base s).mem p ∧
        malloc base grants nbytes s = some (take (units nbytes) prevp p (init base s))) ∨
      ∃ n, c.length + 2 ≤ n ∧
        (∀ p ∈ (init base s).freep :: c, size (init base s).mem p < units nbytes) ∧
        malloc base grants nbytes s =
          (morecore grants (units nbytes) (init base s)).bind fun r =>
            if r.1 = 0 then some (0, r.2)
            else mallocLoop grants (units nbytes) n r.2 r.1 (ptr r.2.mem r.1) := by
  have hlen := h.length_lt
  simp only [HEADER, MEMORY] at hlen
  obtain ⟨n, hn⟩ : ∃ n, turns = c.length + 1 + n := ⟨turns - (c.length + 1), by
    simp only [turns, MEMORY]
    omega⟩
  have hroom : c.length + 2 ≤ n := by
    simp only [turns, MEMORY] at hn
    omega
  have hout : (init base s).freep ∉ c := fun hmem => by
    have hap := (List.pairwise_cons.1 h.apart).1 _ hmem
    simp only [Apart, HEADER] at hap
    omega
  have hrun : malloc base grants nbytes s = mallocLoop grants (units nbytes) (c.length + 1 + n)
      (init base s) (init base s).freep (ptr (init base s).mem (init base s).freep) := by
    rw [← hn]
    rfl
  rw [hrun]
  rcases mallocLoop_scan grants (units nbytes) n h.path hout with
    ⟨prevp, p, hp, hfit, heq⟩ | ⟨hsmall, heq⟩
  · exact .inl ⟨prevp, p, by simpa [or_comm] using hp, hfit, heq⟩
  · refine .inr ⟨n, hroom, fun p hp => hsmall p ?_, heq⟩
    simpa [or_comm] using hp

theorem granted_of_fit {base : Nat} (h : FreeList (init base s) c) (grants : Nat → Bool)
    {nbytes : Nat} (hfit : Fit base nbytes s c) : Granted base grants nbytes s := by
  intro q s' hrun hq
  rcases malloc_scan h grants nbytes with ⟨prevp, p, hp, hsize, heq⟩ | ⟨n, -, hsmall, -⟩
  · rw [heq, Option.some.injEq] at hrun
    obtain ⟨hfst, hbrk, hcores⟩ := take_ends (units nbytes) prevp p (init base s)
    rw [hrun] at hfst hbrk hcores
    have hb := (h.block_lt hp).2.1
    have hu := units_le nbytes
    have hinit : (init base s).cores = s.cores := by
      unfold init
      split <;> rfl
    refine ⟨?_, [], by rw [hcores, hinit, List.nil_append], by simp⟩
    simp only [HEADER] at *
    omega
  · obtain ⟨p, hp, hsize⟩ := hfit
    have := hsmall p hp
    omega

@[simp] theorem init_brk (base : Nat) (s : Heap) : (init base s).brk = s.brk := by
  unfold init
  split <;> rfl

@[simp] theorem init_cores (base : Nat) (s : Heap) : (init base s).cores = s.cores := by
  unfold init
  split <;> rfl

theorem asked_eq (nbytes : Nat) :
    (if units nbytes < 4096 then 4096 else units nbytes) = asked nbytes := by
  unfold asked
  split <;> omega

/-- When the kernel does not refuse, and the new header is in memory. -/
theorem morecore_spec {base nbytes : Nat} (h : FreeList (init base s) c) {grants : Nat → Bool}
    (hn : nbytes < 2 ^ 32) (hsbrk : sbrk grants (request nbytes) s ≠ none)
    (hmapped : s.brk + 12 ≤ mapped (resized s.brk (request nbytes))) :
    ∃ s' c' x, morecore grants (units nbytes) (init base s) = some (s'.freep, s') ∧
      s'.brk = resized s.brk (request nbytes) ∧ s'.cores = (s.brk, asked nbytes) :: s.cores ∧
      Extended (init base s) c s.brk (asked nbytes) s' c' x := by
  have hcall : sbrk grants (request nbytes) (init base s) =
      some (s.brk, { init base s with brk := resized s.brk (request nbytes) }) := by
    unfold sbrk at hsbrk ⊢
    rw [init_brk]
    split at hsbrk
    · exact absurd rfl hsbrk
    · next hyes => rw [if_neg hyes]
  have hnu : asked nbytes < 2 ^ 31 := by
    simp only [asked, units, HEADER]
    omega
  obtain ⟨s', c', x, hfree, hbrk, hcores, hext⟩ := free_core h hnu
    { init base s with
      brk := resized s.brk (request nbytes)
      mem := setSize (init base s).mem s.brk (asked nbytes)
      cores := (s.brk, asked nbytes) :: s.cores } (by rw [init_brk]) rfl
  rw [init_brk] at hfree hext
  refine ⟨s', c', x, ?_, hbrk, hcores, hext⟩
  unfold morecore
  simp only [asked_eq]
  rw [show BitVec.ofNat 32 (asked nbytes * HEADER) = request nbytes from rfl, hcall]
  simp only [if_pos hmapped, init_cores, hfree, Option.map_some]

theorem morecore_refused {base nbytes : Nat} {grants : Nat → Bool} :
    (sbrk grants (request nbytes) s = none →
      morecore grants (units nbytes) (init base s) = some (0, init base s)) ∧
    (sbrk grants (request nbytes) s ≠ none →
      mapped (resized s.brk (request nbytes)) < s.brk + 12 →
        morecore grants (units nbytes) (init base s) = none) := by
  have hcall : sbrk grants (request nbytes) (init base s) =
      (sbrk grants (request nbytes) s).map fun _ =>
        (s.brk, { init base s with brk := resized s.brk (request nbytes) }) := by
    unfold sbrk
    rw [init_brk]
    split <;> rfl
  unfold morecore
  simp only [asked_eq]
  rw [show BitVec.ofNat 32 (asked nbytes * HEADER) = request nbytes from rfl, hcall]
  constructor
  · intro hnone
    rw [hnone]
    rfl
  · intro hsome hout
    obtain ⟨r, hr⟩ := Option.ne_none_iff_exists'.1 hsome
    rw [hr]
    exact if_neg (by simpa using hout)

/-- What `malloc` returns when it has made a new block. -/
theorem malloc_core {base nbytes : Nat} (h : FreeList (init base s) c) {grants : Nat → Bool}
    (hn : nbytes < 2 ^ 32) (hfit : ¬ Fit base nbytes s c)
    (hsbrk : sbrk grants (request nbytes) s ≠ none)
    (hmapped : s.brk + 12 ≤ mapped (resized s.brk (request nbytes))) :
    ∃ r, malloc base grants nbytes s = some r ∧
      r.1 + HEADER * units nbytes = s.brk + HEADER * asked nbytes + HEADER ∧
      r.2.brk = resized s.brk (request nbytes) ∧ r.2.cores = (s.brk, asked nbytes) :: s.cores := by
  rcases malloc_scan h grants nbytes with ⟨-, p, hp, hsize, -⟩ | ⟨n, hroom, hsmall, heq⟩
  · exact absurd ⟨p, hp, hsize⟩ hfit
  obtain ⟨s', c', x, hmore, hbrk, hcores, hext⟩ := morecore_spec h hn hsbrk hmapped
  have hle : units nbytes ≤ asked nbytes := Nat.le_max_right _ _
  obtain ⟨r, hr, hq, hrbrk, hrcores⟩ := hext.scan grants hsmall hle
    (Nat.le_trans (Nat.succ_le_succ hext.length_le) hroom)
  have hpos : s'.freep ≠ 0 := Nat.ne_of_gt (h.pos _ hext.freep_mem)
  refine ⟨r, ?_, hq, hrbrk.trans hbrk, hrcores.trans hcores⟩
  rw [heq, hmore]
  exact (if_neg hpos).trans hr

theorem request_toInt {nbytes : Nat} (hn : nbytes < 2 ^ 32) :
    (asked nbytes * HEADER < 2 ^ 31 → (request nbytes).toInt = asked nbytes * HEADER) ∧
      (2 ^ 31 ≤ asked nbytes * HEADER → (request nbytes).toInt ≤ HEADER) := by
  have hle : asked nbytes * HEADER ≤ 2 ^ 32 + HEADER := by
    simp only [asked, units, HEADER]
    omega
  rw [request, BitVec.toInt_ofNat', Int.bmod]
  simp only [HEADER] at *
  push_cast
  omega

/-- A request that is needed, and that the kernel sees as another one, is
granted less than it gets. -/
theorem not_granted {base nbytes : Nat} (h : FreeList (init base s) c) {grants : Nat → Bool}
    (hn : nbytes < 2 ^ 32) (hask : ¬ AsksRight base grants nbytes s c) :
    ¬ Granted base grants nbytes s := by
  simp only [AsksRight, not_or, Nat.not_lt] at hask
  obtain ⟨hfit, hlarge, hsbrk, hmapped⟩ := hask
  obtain ⟨r, hrun, hq, hbrk, -⟩ := malloc_core h hn hfit hsbrk hmapped
  intro hgranted
  have hint := (request_toInt hn).2 hlarge
  have hend := (hgranted r.1 r.2 hrun (by
    simp only [HEADER, asked, units] at *
    omega)).1
  have hresized : resized s.brk (request nbytes) ≤ s.brk + HEADER := by
    unfold resized
    split <;> omega
  simp only [HEADER, asked, units] at *
  omega

/-- Nothing is returned if the kernel refuses or the header is not in memory. -/
theorem malloc_refused {base nbytes q : Nat} (h : FreeList (init base s) c)
    {grants : Nat → Bool} (hfit : ¬ Fit base nbytes s c)
    (hask : sbrk grants (request nbytes) s = none ∨
      mapped (resized s.brk (request nbytes)) < s.brk + 12) {s' : Heap}
    (hrun : malloc base grants nbytes s = some (q, s')) : q = 0 := by
  rcases malloc_scan h grants nbytes with ⟨-, p, hp, hsize, -⟩ | ⟨n, -, -, heq⟩
  · exact absurd ⟨p, hp, hsize⟩ hfit
  rw [hrun] at heq
  by_cases hsbrk : sbrk grants (request nbytes) s = none
  · rw [morecore_refused.1 hsbrk, Option.bind_some, if_pos rfl] at heq
    cases heq
    rfl
  · rw [morecore_refused.2 hsbrk (hask.resolve_left hsbrk)] at heq
    cases heq

theorem granted_of_small {base nbytes : Nat} (h : FreeList (init base s) c)
    {grants : Nat → Bool} (hn : nbytes < 2 ^ 32) (hfit : ¬ Fit base nbytes s c)
    (hsmall : asked nbytes * HEADER < 2 ^ 31) : Granted base grants nbytes s := by
  intro q s' hrun hq
  have hint := (request_toInt hn).1 hsmall
  have hresized : resized s.brk (request nbytes) = s.brk + HEADER * asked nbytes := by
    unfold resized
    simp only [HEADER] at *
    split <;> omega
  have hsbrk : sbrk grants (request nbytes) s ≠ none := fun hnone =>
    hq (malloc_refused h hfit (.inl hnone) hrun)
  have hmapped : s.brk + 12 ≤ mapped (resized s.brk (request nbytes)) := by
    simp only [hresized, mapped, asked, HEADER]
    omega
  obtain ⟨r, heq, hend, hbrk, hcores⟩ := malloc_core h hn hfit hsbrk hmapped
  rw [hrun, Option.some.injEq] at heq
  subst heq
  dsimp only at hend hbrk hcores
  have hu := units_le nbytes
  refine ⟨?_, [(s.brk, asked nbytes)], hcores, ?_⟩
  · simp only [HEADER] at *
    omega
  · simp only [List.mem_singleton, forall_eq]
    omega

/-- For every size, `malloc` returns memory that the kernel has granted exactly
when its request means to the kernel what it means to `malloc`, or nothing
comes of it. -/
theorem malloc_granted_iff (base : Nat) (s : Heap) (c : List Nat) (h : FreeList (init base s) c)
    (grants : Nat → Bool) (nbytes : BitVec 32) :
    Granted base grants nbytes.toNat s ↔ AsksRight base grants nbytes.toNat s c := by
  constructor
  · intro hgranted
    by_contra hask
    exact not_granted h nbytes.isLt hask hgranted
  · intro hask
    by_cases hfit : Fit base nbytes.toNat s c
    · exact granted_of_fit h grants hfit
    rcases hask with hyes | hsmall | hrefused
    · exact absurd hyes hfit
    · exact granted_of_small h nbytes.isLt hfit hsmall
    · exact fun q s' hrun hq => absurd (malloc_refused h hfit hrefused hrun) hq

/-! ## A new process -/

/-- The program has five pages, and it has not called `malloc` yet. -/
def fivePages : Heap := ⟨fun _ => 0, 0, 20480, []⟩

theorem freeList_fivePages : FreeList (init 4096 fivePages) [] where
  path := ptr_setSize_self.trans (ptr_setPtr_self (by decide))
  below p hp := by
    obtain rfl : p = 4096 := by simpa [init, fivePages] using hp
    have hsize : size (init 4096 fivePages).mem 4096 = 0 := size_setSize_self (by decide)
    rw [hsize]
    decide
  apart := List.pairwise_singleton ..
  pos p hp := by
    obtain rfl : p = 4096 := by simpa [init, fivePages] using hp
    decide
  brk_le := by decide

theorem malloc_granted_iff_fivePages :
    Granted 4096 (fun _ => true) (100 : BitVec 32).toNat fivePages ↔
      AsksRight 4096 (fun _ => true) (100 : BitVec 32).toNat fivePages [] :=
  malloc_granted_iff 4096 fivePages [] freeList_fivePages (fun _ => true) 100

/-- `malloc(0xffffffff)` asks for sixteen bytes and returns what is behind
them. -/
theorem not_granted_largest :
    ¬ Granted 4096 (fun _ => true) (0xffffffff : BitVec 32).toNat fivePages := by
  refine not_granted freeList_fivePages (by decide) fun hask => ?_
  rcases hask with ⟨p, hp, hsize⟩ | hsmall | hnone | hout
  · obtain rfl : p = 4096 := by simpa [init, fivePages] using hp
    have hzero : size (init 4096 fivePages).mem 4096 = 0 := size_setSize_self (by decide)
    rw [hzero] at hsize
    revert hsize
    decide
  · revert hsmall
    decide
  · revert hnone
    decide
  · revert hout
    decide

end Xv6.Umalloc
