import Xv6.Arena.Blocks
import Xv6.Umalloc.Granted

/-!
# The circle of free blocks

In memory the free blocks are the nodes of a circle that begins at `base`, a
header without units.  `free` puts a block where `Arena.release` puts it, and
`malloc` takes the end of a block.  Only headers are written.
-/

namespace Xv6.Umalloc

open Arena (Ordered link)
open Links (Chain Path first last)

/-- The static `base`. -/
abbrev root (base : Nat) : Arena.Block := ⟨base, 0⟩

/-- The links lead through the blocks of `l` to `b`, and their sizes are in
their headers. -/
structure Linked (m : Words.Mem) (l : List Arena.Block) (b : Nat) : Prop where
  chain : Chain (ptr m) (l.map (·.addr)) b
  size : ∀ x ∈ l, Umalloc.size m x.addr = x.count

/-- Only these headers are written. -/
def Only (hs : List Nat) (m m' : Words.Mem) : Prop :=
  ∀ a, (∀ h ∈ hs, a < h ∨ h + HEADER ≤ a) → m' a = m a

variable {base n v p q bp : Nat} {m m' m'' : Words.Mem} {hs hs' : List Nat}
  {l l' r c : List Arena.Block} {x y : Arena.Block} {s s' : Heap}

theorem Only.refl (hs : List Nat) (m : Words.Mem) : Only hs m m := fun _ _ => rfl

theorem Only.trans (h : Only hs m m') (h' : Only hs' m' m'') : Only (hs ++ hs') m m'' := by
  intro a ha
  rw [h' a fun h hh => ha h (List.mem_append_right _ hh)]
  exact h a fun h hh => ha h (List.mem_append_left _ hh)

theorem Only.mono (h : Only hs m m') (hsub : hs ⊆ hs') : Only hs' m m' :=
  fun a ha => h a fun x hx => ha x (hsub hx)

theorem ptr_congr (h : ∀ a, q ≤ a → a < q + HEADER → m' a = m a) : ptr m' q = ptr m q :=
  Words.load_congr fun a hle hlt => h a hle (by
    simp only [HEADER]
    omega)

theorem size_congr (h : ∀ a, q ≤ a → a < q + HEADER → m' a = m a) : size m' q = size m q :=
  Words.load_congr fun a hle hlt => h a (by omega) (by
    simp only [HEADER]
    omega)

theorem Only.header (h : Only hs m m') (hq : ∀ p ∈ hs, Apart p q) :
    ∀ a, q ≤ a → a < q + HEADER → m' a = m a := by
  refine fun a hle hlt => h a fun p hp => ?_
  have hap := hq p hp
  unfold Apart at hap
  omega

theorem Only.size (h : Only hs m m') (hq : ∀ p ∈ hs, Apart p q) : size m' q = size m q :=
  size_congr (h.header hq)

theorem only_setPtr : Only [p] m (setPtr m p v) := by
  intro a ha
  have hap := ha p List.mem_cons_self
  refine Words.store_of_not_mem ?_
  simp only [HEADER] at hap
  omega

theorem only_setSize : Only [p] m (setSize m p v) := by
  intro a ha
  have hap := ha p List.mem_cons_self
  refine Words.store_of_not_mem ?_
  simp only [HEADER] at hap
  omega

/-! ## Blocks in a row -/

theorem Linked.append :
    Linked m (l ++ l') n ↔ Linked m l (first (l'.map (·.addr)) n) ∧ Linked m l' n := by
  constructor
  · intro h
    have hchain := h.chain
    rw [List.map_append, Chain.append] at hchain
    exact ⟨⟨hchain.1, fun x hx => h.size x (List.mem_append_left _ hx)⟩, hchain.2,
      fun x hx => h.size x (List.mem_append_right _ hx)⟩
  · intro h
    refine ⟨?_, fun x hx => ?_⟩
    · rw [List.map_append, Chain.append]
      exact ⟨h.1.chain, h.2.chain⟩
    · rcases List.mem_append.1 hx with hx | hx
      · exact h.1.size x hx
      · exact h.2.size x hx

theorem linked_cons : Linked m (x :: l) n ↔
    ptr m x.addr = first (l.map (·.addr)) n ∧ size m x.addr = x.count ∧ Linked m l n := by
  constructor
  · intro h
    exact ⟨h.chain.1, h.size x List.mem_cons_self, h.chain.2, fun y hy =>
      h.size y (List.mem_cons_of_mem _ hy)⟩
  · intro h
    refine ⟨⟨h.1, h.2.2.chain⟩, fun y hy => ?_⟩
    rcases List.mem_cons.1 hy with rfl | hy
    · exact h.2.1
    · exact h.2.2.size y hy

/-- Only the headers matter. -/
theorem Linked.congr (h : Linked m l n)
    (hl : ∀ x ∈ l, ∀ a, x.addr ≤ a → a < x.addr + HEADER → m' a = m a) : Linked m' l n := by
  refine ⟨h.chain.congr fun z hz => ?_, fun x hx => ?_⟩
  · obtain ⟨x, hx, rfl⟩ := List.mem_map.1 hz
    exact ptr_congr (hl x hx)
  · rw [size_congr (hl x hx), h.size x hx]

theorem Linked.frame (h : Linked m l n) (hm : Only hs m m')
    (hl : ∀ p ∈ hs, ∀ x ∈ l, Apart p x.addr) : Linked m' l n :=
  h.congr fun x hx => hm.header fun p hp => hl p hp x hx

theorem first_link : first ((link HEADER x l).map (·.addr)) n = x.addr := by
  obtain ⟨k, l', heq, -⟩ := Arena.exists_link (w := HEADER) x l
  rw [heq]
  rfl

theorem first_lt (hl : ∀ y ∈ l, y.addr < v) (hn : n < v) :
    first (l.map (·.addr)) n < v := by
  cases l with
  | nil => exact hn
  | cons y l => exact hl y List.mem_cons_self

/-! ## Releasing a block -/

/-- Where the bytes of a block and of those behind it are. -/
structure Room (x : Arena.Block) (l : List Arena.Block) : Prop where
  stop : ∀ y ∈ x :: l, y.stop HEADER ≤ MEMORY
  far : ∀ y ∈ l, x.addr + HEADER ≤ y.addr

theorem Room.count_lt (h : Room x (y :: l)) (htouch : x.stop HEADER = y.addr) :
    x.count + y.count < 2 ^ 32 := by
  have hy := h.stop y (List.mem_cons_of_mem _ List.mem_cons_self)
  simp only [Arena.Block.stop, HEADER, MEMORY] at *
  omega

theorem Room.frame (h : Room x l) (hl : Linked m l n) (hm : Only [x.addr] m m') :
    Linked m' l n := by
  refine hl.frame hm fun p hp z hz => ?_
  rw [List.mem_singleton.1 hp]
  exact .inl (h.far z hz)

theorem first_le (hl : ∀ y ∈ l, y.stop HEADER ≤ MEMORY) (hn : n ≤ MEMORY) :
    first (l.map (·.addr)) n ≤ MEMORY := by
  cases l with
  | nil => exact hn
  | cons y l =>
    have hy := hl y List.mem_cons_self
    show y.addr ≤ MEMORY
    unfold Arena.Block.stop at hy
    omega

theorem Room.tail (h : Room x (y :: l)) : Room x l where
  stop z hz := h.stop z (by
    rcases List.mem_cons.1 hz with rfl | hz
    · exact List.mem_cons_self
    · exact List.mem_cons_of_mem _ (List.mem_cons_of_mem _ hz))
  far z hz := h.far z (List.mem_cons_of_mem _ hz)

/-- Link the header at `b` to the one at `q`, or join them if they touch. -/
def joinAt (m : Words.Mem) (b q : Nat) : Words.Mem :=
  if b + HEADER * size m b = q then
    setPtr (setSize m b (size m b + size m q)) b (ptr m q)
  else
    setPtr m b q

theorem joinUpper_eq (hp : Apart bp p) (hq : Apart bp (ptr m p)) :
    joinUpper m bp p = joinAt m bp (ptr m p) := by
  unfold joinUpper joinAt
  split
  · simp only [ptr_setSize hp, ptr_setSize hq]
  · rfl

theorem joinLower_eq (hp : Apart p bp) : joinLower m bp p = joinAt m p bp := by
  unfold joinLower joinAt
  split
  · simp only [ptr_setSize hp]
  · rfl

theorem only_joinAt : Only [p] m (joinAt m p q) := by
  unfold joinAt
  split
  · exact (only_setSize.trans only_setPtr).mono (by simp)
  · exact only_setPtr

/-- In memory this is `Arena.link`. -/
theorem joinAt_linked (hl : Linked m l n) (hroom : Room x l) (hn : n ≤ MEMORY)
    (hback : l = [] → n ≠ x.stop HEADER) (hx : size m x.addr = x.count) :
    Linked (joinAt m x.addr (first (l.map (·.addr)) n)) (link HEADER x l) n := by
  have honly : Only [x.addr] m (joinAt m x.addr (first (l.map (·.addr)) n)) := only_joinAt
  have hfirst := first_le (fun y hy => hroom.stop y (List.mem_cons_of_mem _ hy)) hn
  by_cases htouch : x.stop HEADER = first (l.map (·.addr)) n
  · cases l with
    | nil => exact absurd htouch.symm (hback rfl)
    | cons y l =>
      obtain ⟨hnext, hy, hrest⟩ := linked_cons.1 hl
      have htouch : x.stop HEADER = y.addr := htouch
      have hle := first_le (fun z hz => hroom.tail.stop z (List.mem_cons_of_mem _ hz)) hn
      have hmem : joinAt m x.addr y.addr =
          setPtr (setSize m x.addr (x.count + y.count)) x.addr (ptr m y.addr) := by
        rw [joinAt, hx, hy]
        exact if_pos htouch
      rw [Arena.link_of_touch htouch]
      refine linked_cons.2 ⟨?_, ?_, hroom.tail.frame hrest honly⟩
      · show ptr (joinAt m x.addr y.addr) x.addr = _
        rw [hmem, hnext]
        refine ptr_setPtr_self ?_
        simp only [MEMORY] at hle
        omega
      · show size (joinAt m x.addr y.addr) x.addr = _
        rw [hmem, size_setPtr_self]
        exact size_setSize_self (hroom.count_lt htouch)
  · have hmem : joinAt m x.addr (first (l.map (·.addr)) n) =
        setPtr m x.addr (first (l.map (·.addr)) n) := by
      rw [joinAt, hx]
      exact if_neg htouch
    have hlink : link HEADER x l = x :: l := by
      cases l with
      | nil => rfl
      | cons y l => exact Arena.link_of_gap htouch
    rw [hlink]
    refine linked_cons.2 ⟨?_, ?_, hroom.frame hl honly⟩
    · rw [hmem]
      refine ptr_setPtr_self ?_
      simp only [MEMORY] at hfirst
      omega
    · rw [hmem, size_setPtr_self, hx]

/-! ## Where a block belongs -/

/-- The test of the loop of `free`. -/
def Stops (m : Words.Mem) (bp p : Nat) : Prop :=
  (p < bp ∧ bp < ptr m p) ∨ (ptr m p ≤ p ∧ (p < bp ∨ bp < ptr m p))

theorem search_stops (h : Stops m bp p) : search m bp (n + 1) p = some p := by
  rw [search]
  by_cases hbetween : bp > p ∧ bp < ptr m p
  · exact if_pos hbetween
  · rw [if_neg hbetween]
    exact if_pos (h.resolve_left hbetween)

theorem search_goes_on (h : ¬ Stops m bp p) : search m bp (n + 1) p = search m bp n (ptr m p) := by
  rw [search, if_neg fun hbetween => h (.inl hbetween), if_neg fun hwrap => h (.inr hwrap)]

/-- The loop finds the one block where it stops. -/
theorem search_path {a b : Nat} {t : List Nat} (h : Path (ptr m) a t b) (hp : p ∈ a :: t)
    (hstop : Stops m bp p) (hgo : ∀ z ∈ a :: t, z ≠ p → ¬ Stops m bp z) (hn : t.length < n) :
    search m bp n a = some p := by
  induction t generalizing a n with
  | nil =>
    obtain ⟨n, rfl⟩ := Nat.exists_eq_add_of_lt hn
    obtain rfl : p = a := by simpa using hp
    exact search_stops hstop
  | cons y t ih =>
    obtain ⟨n, rfl⟩ := Nat.exists_eq_add_of_lt hn
    by_cases hap : a = p
    · rw [hap]
      exact search_stops hstop
    · rw [search_goes_on (hgo a List.mem_cons_self hap), h.1]
      refine ih h.2 ?_ (fun z hz => hgo z (List.mem_cons_of_mem _ hz)) ?_
      · rcases List.mem_cons.1 hp with rfl | hp
        · exact absurd rfl hap
        · exact hp
      · rw [List.length_cons]
        omega

/-- The header of each block is before those of the blocks behind it. -/
def Spaced (l : List Arena.Block) : Prop := l.Pairwise fun b b' => b.addr + HEADER ≤ b'.addr

theorem Linked.next (h : Linked m (l ++ x :: r) n) : ptr m x.addr = first (r.map (·.addr)) n :=
  (linked_cons.1 (Linked.append.1 h).2).1

/-- The next block is further on, or it is where the circle wraps. -/
theorem Linked.next_cases (h : Linked m (l ++ x :: r) n) :
    (r = [] ∧ ptr m x.addr = n) ∨ ∃ y r', r = y :: r' ∧ ptr m x.addr = y.addr := by
  cases r with
  | nil => exact .inl ⟨rfl, h.next⟩
  | cons y r => exact .inr ⟨y, r, rfl, h.next⟩

/-- The loop stops at the block before `bp`. -/
theorem stops_before (h : Linked m (l ++ x :: r) n) (hn : n ≤ x.addr) (hx : x.addr < bp)
    (hr : ∀ y ∈ r, bp < y.addr) : Stops m bp x.addr := by
  rcases h.next_cases with ⟨-, hnext⟩ | ⟨y, r', rfl, hnext⟩
  · exact .inr ⟨hnext ▸ hn, .inl hx⟩
  · exact .inl ⟨hx, hnext ▸ hr y List.mem_cons_self⟩

/-- It stops at no other one. -/
theorem not_stops (h : Linked m (l ++ x :: r) n) (hl : Spaced (l ++ x :: r))
    (hn : n ≤ x.addr) (hx : x.addr < bp) (hr : ∀ y ∈ r, bp < y.addr)
    (hy : y ∈ l ++ x :: r) (hne : y ≠ x) : ¬ Stops m bp y.addr := by
  unfold Stops
  rcases List.mem_append.1 hy with hy | hy
  · obtain ⟨l₁, l₂, rfl⟩ := List.append_of_mem hy
    rw [List.append_assoc, List.cons_append] at h hl
    obtain ⟨hyl, hlx⟩ := List.pairwise_cons.1 (List.pairwise_append.1 hl).2.1
    rcases h.next_cases with ⟨hnil, -⟩ | ⟨z, r', heq, hnext⟩
    · simp at hnil
    · rw [heq] at hyl hlx
      have hyz := hyl z List.mem_cons_self
      have hzx : z.addr ≤ x.addr := by
        cases l₂ with
        | nil =>
          cases heq
          exact Nat.le_refl _
        | cons z' l₂ =>
          cases heq
          have hzx := (List.pairwise_cons.1 hlx).1 x (List.mem_append_right _ List.mem_cons_self)
          omega
      rw [hnext]
      simp only [HEADER] at hyz
      omega
  · have hy : y ∈ r := (List.mem_cons.1 hy).resolve_left hne
    have hby := hr y hy
    obtain ⟨r₁, r₂, rfl⟩ := List.append_of_mem hy
    rw [← List.cons_append, ← List.append_assoc] at h hl
    rcases h.next_cases with ⟨-, hnext⟩ | ⟨z, r', heq, hnext⟩
    · rw [hnext]
      omega
    · have hyz := (List.pairwise_cons.1 (List.pairwise_append.1 hl).2.1).1 z (by
        rw [heq]
        exact List.mem_cons_self)
      rw [hnext]
      simp only [HEADER] at hyz
      omega

/-- The free blocks: they are in the order of their addresses, and in granted
memory. -/
structure Free (base brk : Nat) (c : List Arena.Block) : Prop where
  ordered : Ordered HEADER (root base :: c)
  pos : ∀ b ∈ c, 0 < b.count
  above : ∀ b ∈ c, base + HEADER ≤ b.addr
  below : ∀ b ∈ c, b.stop HEADER ≤ brk
  base_le : base + HEADER ≤ brk
  brk_le : brk ≤ MEMORY

theorem Free.spaced {brk : Nat} (h : Free base brk c) : Spaced (root base :: c) := by
  refine List.pairwise_cons.2 ⟨h.above, ?_⟩
  refine (List.pairwise_cons.1 h.ordered).2.imp_of_mem fun {b b'} hb _ hlt => ?_
  have hpos := h.pos b hb
  simp only [Arena.Block.stop, HEADER] at *
  omega

theorem Free.root_le {brk : Nat} (h : Free base brk c) : ∀ y ∈ root base :: c, base ≤ y.addr := by
  intro y hy
  rcases List.mem_cons.1 hy with rfl | hy
  · exact Nat.le_refl _
  · exact Nat.le_trans (Nat.le_add_right ..) (h.above y hy)

theorem Free.stop_le {brk : Nat} (h : Free base brk c) :
    ∀ y ∈ root base :: c, y.stop HEADER ≤ brk := by
  intro y hy
  rcases List.mem_cons.1 hy with rfl | hy
  · exact Nat.le_trans (Nat.le_add_right ..) h.base_le
  · exact h.below y hy

/-- There are fewer blocks than the loop may turn. -/
theorem Free.length_lt {brk : Nat} (h : Free base brk c) : c.length + 1 ≤ MEMORY / HEADER := by
  have hspaced : ((root base :: c).map (·.addr)).Pairwise Apart :=
    List.pairwise_map.2 (h.spaced.imp Or.inl)
  have hlen := length_le_of_apart hspaced (b := brk) fun p hp => by
    obtain ⟨y, hy, rfl⟩ := List.mem_map.1 hp
    rcases List.mem_cons.1 hy with rfl | hy
    · exact h.base_le
    · have hpos := h.pos y hy
      have hstop := h.below y hy
      simp only [Arena.Block.stop, HEADER] at *
      omega
  have hbrk := h.brk_le
  simp only [List.length_map, List.length_cons, HEADER, MEMORY] at *
  omega

/-- The free list is in memory. -/
structure Ring (base : Nat) (s : Heap) (c : List Arena.Block) : Prop where
  linked : Linked s.mem (root base :: c) base
  freep_mem : s.freep ∈ (root base :: c).map (·.addr)

/-- The circle from `freep` on. -/
theorem Ring.path (h : Ring base s c) : ∃ t, Path (ptr s.mem) s.freep t s.freep ∧
    (s.freep :: t).Perm ((root base :: c).map (·.addr)) :=
  (Chain.path.1 h.linked.chain).exists_rotation h.freep_mem

/-- The block at `x` is apart from the free ones. -/
def Away (base : Nat) (c : List Arena.Block) (x : Arena.Block) : Prop :=
  base + HEADER ≤ x.addr ∧ 0 < x.count ∧ x.stop HEADER ≤ MEMORY ∧ ∀ b ∈ c, Arena.Apart HEADER x b

theorem release_root (hx : Away base c x) (h : ∀ b ∈ c, base + HEADER ≤ b.addr) :
    Arena.release HEADER x (root base :: c) = root base :: Arena.release HEADER x c := by
  obtain ⟨hbase, -⟩ := hx
  rw [Arena.release_of_ge (by
    show ¬ x.addr < base
    omega)]
  refine Arena.link_of_far fun d hd => ?_
  have hle := Arena.le_release hbase h d hd
  show base + HEADER * 0 < d.addr
  simp only [HEADER] at *
  omega

/-- Where `x` belongs there is room for it. -/
theorem Away.place {brk : Nat} {b : Arena.Block} (hx : Away base c x) (hfree : Free base brk c)
    (hb : b ∈ root base :: c) : (b.addr ≤ x.addr → b.addr + HEADER ≤ x.addr) ∧
      (x.addr < b.addr → x.addr + HEADER ≤ b.addr) := by
  obtain ⟨hbase, hpos, -, hap⟩ := hx
  rcases List.mem_cons.1 hb with rfl | hb
  · exact ⟨fun _ => hbase, fun hlt => by
      have hlt : x.addr < base := hlt
      omega⟩
  · have hxb := hap b hb
    have hbpos := hfree.pos b hb
    simp only [Arena.Apart, Arena.Block.stop, HEADER] at *
    omega

/-- What `free` does to the list, once it is known where `x` belongs. -/
theorem joins_linked {b : Arena.Block} (hlinked : Linked m (l ++ b :: r) n) (hb : b.addr + HEADER ≤ x.addr)
    (hr : Room x r) (hl : ∀ z ∈ l, z.addr + HEADER ≤ b.addr) (hstop : b.stop HEADER ≤ MEMORY)
    (hn : n + HEADER ≤ x.addr) (hx : size m x.addr = x.count) :
    Linked (joinLower (joinUpper m x.addr b.addr) x.addr b.addr)
        (l ++ link HEADER b (link HEADER x r)) n ∧
      Only [x.addr, b.addr] m (joinLower (joinUpper m x.addr b.addr) x.addr b.addr) := by
  obtain ⟨hlow, hhigh⟩ := Linked.append.1 hlinked
  obtain ⟨hnext, hsize, hrest⟩ := linked_cons.1 hhigh
  have hxstop := hr.stop x List.mem_cons_self
  have hxle : x.addr ≤ x.stop HEADER := Nat.le_add_right ..
  have hapart : Apart x.addr b.addr := .inr hb
  have hupper : joinUpper m x.addr b.addr = joinAt m x.addr (first (r.map (·.addr)) n) := by
    rw [joinUpper_eq hapart, hnext]
    rw [hnext]
    cases r with
    | nil => exact .inr hn
    | cons y r => exact .inl (hr.far y List.mem_cons_self)
  have honly₁ : Only [x.addr] m (joinUpper m x.addr b.addr) := hupper ▸ only_joinAt
  have hlinked₁ : Linked (joinUpper m x.addr b.addr) (link HEADER x r) n := by
    rw [hupper]
    have hn : n < x.addr := Nat.lt_of_lt_of_le (Nat.lt_add_of_pos_right (by decide)) hn
    exact joinAt_linked hrest hr (by omega) (fun _ => by omega) hx
  generalize joinUpper m x.addr b.addr = m₁ at *
  have hlower : joinLower m₁ x.addr b.addr =
      joinAt m₁ b.addr (first ((link HEADER x r).map (·.addr)) n) := by
    rw [joinLower_eq hapart.symm, first_link]
  have honly₂ : Only [b.addr] m₁ (joinLower m₁ x.addr b.addr) := hlower ▸ only_joinAt
  have hroom : Room b (link HEADER x r) := by
    refine ⟨fun y hy => ?_, Arena.le_link hb fun y hy => ?_⟩
    · rcases List.mem_cons.1 hy with rfl | hy
      · exact hstop
      · exact Arena.stop_link hxstop (fun z hz => hr.stop z (List.mem_cons_of_mem _ hz)) y hy
    · have hfar := hr.far y hy
      omega
  have hsize₁ : size m₁ b.addr = b.count := by
    rw [honly₁.size fun p hp => by rwa [List.mem_singleton.1 hp], hsize]
  have hlinked₂ : Linked (joinLower m₁ x.addr b.addr) (link HEADER b (link HEADER x r)) n := by
    rw [hlower]
    refine joinAt_linked hlinked₁ hroom (by omega) (fun hnil => ?_) hsize₁
    obtain ⟨k, l', heq, -⟩ := Arena.exists_link (w := HEADER) x r
    rw [heq] at hnil
    cases hnil
  have honly := honly₁.trans honly₂
  refine ⟨Linked.append.2 ⟨?_, hlinked₂⟩, honly⟩
  rw [first_link]
  refine Linked.frame hlow honly fun p hp z hz => ?_
  have hzb := hl z hz
  rcases List.mem_cons.1 hp with rfl | hp
  · exact .inr (by omega)
  · rw [List.mem_singleton.1 hp]
    exact .inr hzb

/-- `free` puts the block where it belongs, and it writes only headers of free
blocks. -/
theorem free_spec {brk : Nat} (hring : Ring base s c) (hfree : Free base brk c)
    (hx : Away base c x) (hsize : size s.mem x.addr = x.count) :
    ∃ s', free (x.addr + HEADER) s = some s' ∧ Ring base s' (Arena.release HEADER x c) ∧
      s'.brk = s.brk ∧ s'.cores = s.cores ∧
      Only (x.addr :: (root base :: c).map (·.addr)) s.mem s'.mem := by
  have hspaced := hfree.spaced
  have hordered := hfree.ordered
  have hlinked := hring.linked
  obtain ⟨t, hpath, hperm⟩ := hring.path
  obtain ⟨l, p, r, heq, hlow, hhigh⟩ := Arena.exists_place (a := x.addr) hordered (by
    have hbase := hx.1
    show base ≤ x.addr
    omega)
  have hin : ∀ y ∈ l ++ p :: r, y ∈ root base :: c := fun y hy => heq ▸ hy
  have hp : p ∈ root base :: c := hin p (by simp)
  have hpx := (hx.place hfree hp).1 hlow
  have hpne : p.addr < x.addr := Nat.lt_of_lt_of_le (Nat.lt_add_of_pos_right (by decide)) hpx
  have hroom : Room x r := by
    refine ⟨fun y hy => ?_, fun y hy => ?_⟩
    · rcases List.mem_cons.1 hy with rfl | hy
      · exact hx.2.2.1
      · exact Nat.le_trans (hfree.stop_le y (hin y (by simp [hy]))) hfree.brk_le
    · exact (hx.place hfree (hin y (by simp [hy]))).2 (hhigh y hy)
  rw [heq] at hlinked hspaced hordered
  have hsearch : search s.mem x.addr turns s.freep = some p.addr := by
    refine search_path hpath ?_ (stops_before hlinked (hfree.root_le p hp) hpne hhigh) ?_ ?_
    · exact hperm.mem_iff.2 (List.mem_map_of_mem hp)
    · intro z hz hne
      obtain ⟨y, hy, rfl⟩ := List.mem_map.1 (hperm.mem_iff.1 hz)
      refine not_stops hlinked hspaced (hfree.root_le p hp) hpne hhigh (heq ▸ hy) ?_
      rintro rfl
      exact hne rfl
    · have hlen := hperm.length_eq
      have hlt := hfree.length_lt
      simp only [List.length_map, List.length_cons, HEADER, MEMORY, turns] at *
      omega
  have hbelow : ∀ z ∈ l, z.addr + HEADER ≤ p.addr := fun z hz =>
    (List.pairwise_append.1 hspaced).2.2 z hz p List.mem_cons_self
  have hpstop := Nat.le_trans (hfree.stop_le p hp) hfree.brk_le
  obtain ⟨hjoined, honly⟩ := joins_linked hlinked hpx hroom hbelow hpstop hx.1 hsize
  have hrelease : root base :: Arena.release HEADER x c = l ++ link HEADER p (link HEADER x r) := by
    rw [← release_root hx hfree.above, heq]
    exact Arena.release_append hordered hlow hhigh
  have hsub : [x.addr, p.addr] ⊆ x.addr :: (root base :: c).map (·.addr) := by
    intro a ha
    rcases List.mem_cons.1 ha with rfl | ha
    · exact List.mem_cons_self
    · rw [List.mem_singleton.1 ha]
      exact List.mem_cons_of_mem _ (List.mem_map_of_mem hp)
  have hhead : p.addr ∈ (root base :: Arena.release HEADER x c).map (·.addr) := by
    obtain ⟨k, l', hlink, -⟩ := Arena.exists_link (w := HEADER) p (link HEADER x r)
    rw [hrelease, hlink]
    simp
  have hrun : free (x.addr + HEADER) s =
      some { s with mem := joinLower (joinUpper s.mem x.addr p.addr) x.addr p.addr,
                    freep := p.addr } := by
    simp only [free, Nat.add_sub_cancel, hsearch, Option.map_some]
  rw [← hrelease] at hjoined
  generalize joinLower (joinUpper s.mem x.addr p.addr) x.addr p.addr = m' at *
  exact ⟨{ s with mem := m', freep := p.addr }, hrun, ⟨hjoined, hhead⟩, rfl, rfl, honly.mono hsub⟩

end Xv6.Umalloc
