import Xv6.Fs.Names
import Xv6.Fs.Trunc

/-!
# The blocks that are logged

`Logs` bounds what a piece of code passes to `log_write`: blocks of the bitmap,
the blocks of some inodes, and `n` more.
-/

namespace Xv6.Fs

open Run
open Function (update)

variable {sb : Superblock} {s s' s'' : State} {ip : Nat} {inodes : List Nat} {m n : Nat}
  {E : String → Prop}

/-- From `s` to `s'`, the bitmap, `inodes` and `n` further blocks are logged. -/
def Logs (sb : Superblock) (inodes : List Nat) (n : Nat) (s s' : State) : Prop :=
  ∃ bs : List Nat, bs.length ≤ n ∧
    ∀ b ∈ s'.logged, b ∈ s.logged ∨ IsBmap sb b ∨ (∃ i ∈ inodes, b = sb.IBLOCK i) ∨ b ∈ bs

namespace Logs

theorem of_eq (h : s'.logged = s.logged) : Logs sb inodes n s s' :=
  ⟨[], Nat.zero_le n, fun _ hb => .inl (h ▸ hb)⟩

theorem mono {inodes' : List Nat} (h : Logs sb inodes m s s') (his : inodes ⊆ inodes')
    (hn : m ≤ n) : Logs sb inodes' n s s' := by
  obtain ⟨bs, hlen, hbs⟩ := h
  refine ⟨bs, by omega, fun b hb => ?_⟩
  rcases hbs b hb with hold | hmap | ⟨i, hi, rfl⟩ | hin
  · exact .inl hold
  · exact .inr (.inl hmap)
  · exact .inr (.inr (.inl ⟨i, his hi, rfl⟩))
  · exact .inr (.inr (.inr hin))

theorem trans (h : Logs sb inodes m s s') (h' : Logs sb inodes n s' s'') :
    Logs sb inodes (m + n) s s'' := by
  obtain ⟨bs, hlen, hbs⟩ := h
  obtain ⟨cs, hlen', hcs⟩ := h'
  refine ⟨bs ++ cs, by rw [List.length_append]; omega, fun b hb => ?_⟩
  rcases hcs b hb with hold | hmap | hi | hin
  · rcases hbs b hold with hold | hmap | hi | hin
    · exact .inl hold
    · exact .inr (.inl hmap)
    · exact .inr (.inr (.inl hi))
    · exact .inr (.inr (.inr (List.mem_append_left cs hin)))
  · exact .inr (.inl hmap)
  · exact .inr (.inr (.inl hi))
  · exact .inr (.inr (.inr (List.mem_append_right bs hin)))

/-- The block of an inode counts as one of the further blocks. -/
theorem of_inode {i : Nat} (h : Logs sb (i :: inodes) m s s') :
    Logs sb inodes (m + 1) s s' := by
  obtain ⟨bs, hlen, hbs⟩ := h
  refine ⟨sb.IBLOCK i :: bs, by rw [List.length_cons]; omega, fun b hb => ?_⟩
  rcases hbs b hb with hold | hmap | ⟨j, hj, rfl⟩ | hin
  · exact .inl hold
  · exact .inr (.inl hmap)
  · rcases List.mem_cons.1 hj with rfl | hj
    · exact .inr (.inr (.inr List.mem_cons_self))
    · exact .inr (.inr (.inl ⟨j, hj, rfl⟩))
  · exact .inr (.inr (.inr (List.mem_cons_of_mem _ hin)))

/-- With one bitmap block, the number of blocks is bounded. -/
theorem length_le (h : Logs sb inodes n s s') (hempty : s.logged = []) (hone : sb.size ≤ BPB) :
    s'.logged.dedup.length ≤ 1 + inodes.length + n := by
  obtain ⟨bs, hlen, hbs⟩ := h
  have hsub : s'.logged.dedup ⊆ sb.bmapstart :: (inodes.map sb.IBLOCK ++ bs) := by
    intro b hb
    rcases hbs b (List.mem_dedup.1 hb) with hold | ⟨c, hc, rfl⟩ | ⟨i, hi, rfl⟩ | hin
    · rw [hempty] at hold
      cases hold
    · have hfirst : sb.BBLOCK c = sb.bmapstart := by
        unfold Superblock.BBLOCK
        rw [Nat.div_eq_of_lt (by omega), Nat.zero_add]
      rw [hfirst]
      exact List.mem_cons_self
    · exact List.mem_cons_of_mem _ (List.mem_append_left _ (List.mem_map_of_mem hi))
    · exact List.mem_cons_of_mem _ (List.mem_append_right _ hin)
  have hle := ((List.nodup_dedup s'.logged).subperm hsub).length_le
  simp only [List.length_cons, List.length_append, List.length_map] at hle
  omega

end Logs

/-! ## Writing -/

theorem balloc_logs : Wp (balloc sb) (fun r s' =>
    ∀ b ∈ s'.logged, b ∈ s.logged ∨ IsBmap sb b ∨ b = r) E s := by
  unfold balloc
  rw [wp_bind, wp_get]
  cases hfind : (List.range sb.size).find? fun b => !s.bitmap b with
  | none => exact fun b hb => .inl hb
  | some c =>
    have hc : c < sb.size := List.mem_range.1 (List.mem_of_find?_eq_some hfind)
    intro b hb
    have hb : b ∈ c :: sb.BBLOCK c :: s.logged := hb
    rcases List.mem_cons.1 hb with rfl | hb
    · exact .inr (.inr rfl)
    · rcases List.mem_cons.1 hb with rfl | hb
      · exact .inr (.inl ⟨c, hc, rfl⟩)
      · exact .inl hb

theorem addrOf_logs {i : Nat} : Wp (addrOf sb ip i) (fun r s' =>
    ∀ b ∈ s'.logged, b ∈ s.logged ∨ IsBmap sb b ∨ b = r) E s := by
  unfold addrOf
  rw [wp_bind, wp_get]
  refine Wp.ite (fun _ => ?_) fun _ => fun b hb => .inl hb
  refine balloc_logs.bind fun r s₁ h => ?_
  exact Wp.ite (fun hzero => hzero ▸ h) fun _ => h

/-- `bmap` logs the block that it answers, and the indirect block. -/
theorem bmap_logs {bn : Nat} : Wp (bmap sb ip bn) (fun r s' =>
    ∃ x, ∀ b ∈ s'.logged, b ∈ s.logged ∨ IsBmap sb b ∨ b = x ∨ b = r) (fun _ => True) s := by
  unfold bmap
  refine Wp.ite (fun _ => ?_) fun _ => Wp.ite (fun _ => ?_) fun _ => trivial
  · exact addrOf_logs.post fun r s' h => ⟨0, fun b hb => (h b hb).imp_right (.imp_right .inr)⟩
  · refine addrOf_logs.bind fun ind s₁ h₁ => ?_
    have hind : ∀ r, ∀ b ∈ s₁.logged, b ∈ s.logged ∨ IsBmap sb b ∨ b = ind ∨ b = r :=
      fun r b hb => (h₁ b hb).imp_right (.imp_right .inl)
    refine Wp.ite (fun _ => ⟨ind, hind 0⟩) fun _ => ?_
    rw [wp_bind, wp_get]
    refine Wp.ite (fun _ => ?_) fun _ => ⟨ind, hind _⟩
    refine balloc_logs.bind fun r s₂ h₂ => ?_
    have hboth : ∀ b ∈ s₂.logged, b ∈ s.logged ∨ IsBmap sb b ∨ b = ind ∨ b = r := by
      intro b hb
      rcases h₂ b hb with hold | hmap | hr
      · exact hind r b hold
      · exact .inr (.inl hmap)
      · exact .inr (.inr (.inr hr))
    refine Wp.ite (fun hzero => ⟨ind, hzero ▸ hboth⟩) fun _ => ⟨ind, fun b hb => ?_⟩
    have hb : b ∈ ind :: s₂.logged := hb
    rcases List.mem_cons.1 hb with hi | hb
    · exact .inr (.inr (.inl hi))
    · exact hboth b hb

/-- How many blocks `n` bytes at `off` touch. -/
def blocks (off n : Nat) : Nat := if n = 0 then 0 else (off % BSIZE + n + (BSIZE - 1)) / BSIZE

theorem blocks_chunk (off : Nat) {left : Nat} (h : 0 < left) :
    1 + blocks (off + chunk off left) (left - chunk off left) ≤ blocks off left := by
  have hdiv := Nat.div_add_mod off BSIZE
  have hmod : off % BSIZE < BSIZE := Nat.mod_lt _ (by decide)
  unfold blocks
  rw [if_neg (Nat.ne_of_gt h)]
  by_cases hle : left ≤ BSIZE - off % BSIZE
  · have hall : chunk off left = left := Nat.min_eq_left hle
    rw [hall, Nat.sub_self, if_pos rfl, Nat.add_zero]
    exact (Nat.one_le_div_iff (by decide)).2 (by omega)
  · have hpart : chunk off left = BSIZE - off % BSIZE := Nat.min_eq_right (by omega)
    have haligned : off + (BSIZE - off % BSIZE) = (off / BSIZE + 1) * BSIZE := by
      rw [Nat.add_mul, Nat.one_mul, Nat.mul_comm]
      omega
    rw [hpart, haligned, Nat.mul_mod_left, if_neg (by omega)]
    have hsplit : off % BSIZE + left + (BSIZE - 1) =
        0 + (left - (BSIZE - off % BSIZE)) + (BSIZE - 1) + BSIZE := by omega
    rw [hsplit, Nat.add_div_right _ (by decide)]
    omega

theorem writeLoop_logs {src : Source} {fuel tot off : Nat} :
    Wp (writeLoop sb ip src n fuel tot off)
      (fun _ s' => Logs sb [] (2 * blocks off (n - tot)) s s') (fun _ => True) s := by
  induction fuel generalizing tot off s with
  | zero => exact .of_eq rfl
  | succ fuel ih =>
    unfold writeLoop
    refine Wp.ite (fun hlt => ?_) fun _ => .of_eq rfl
    have hcount := blocks_chunk off (show 0 < n - tot by omega)
    refine bmap_logs.bind fun addr s₁ h₁ => ?_
    obtain ⟨x, hx⟩ := h₁
    have htwo : ∀ s₂ : State, s₂.logged = addr :: s₁.logged ∨ s₂.logged = s₁.logged →
        Logs sb [] 2 s s₂ := by
      intro s₂ hs₂
      refine ⟨[x, addr], Nat.le_refl 2, fun b hb => ?_⟩
      have hb : b = addr ∨ b ∈ s₁.logged := by
        rcases hs₂ with hs₂ | hs₂
        · rw [hs₂] at hb
          exact List.mem_cons.1 hb
        · rw [hs₂] at hb
          exact .inr hb
      rcases hb with rfl | hb
      · exact .inr (.inr (.inr (by simp)))
      · rcases hx b hb with hold | hmap | rfl | rfl
        · exact .inl hold
        · exact .inr (.inl hmap)
        · exact .inr (.inr (.inr (by simp)))
        · exact .inr (.inr (.inr (by simp)))
    have hstop : ∀ s₂ : State, s₂.logged = s₁.logged →
        Logs sb [] (2 * blocks off (n - tot)) s s₂ := fun s₂ hs₂ =>
      (htwo s₂ (.inr hs₂)).mono (List.Subset.refl _) (by omega)
    refine Wp.ite (fun _ => hstop _ rfl) fun _ => ?_
    rw [wp_bind, wp_get, wp_bind, wp_setData]
    refine Wp.ite (fun _ => hstop _ rfl) fun _ => ?_
    rw [wp_bind, wp_logWrite]
    refine ih.post fun r s₂ h₂ => ((htwo _ (.inl rfl)).trans h₂).mono (List.Subset.refl _) ?_
    rw [Nat.sub_add_eq]
    omega

theorem writei_logs {src : Source} {off n : U32} :
    Wp (writei sb ip src off n)
      (fun _ s' => Logs sb [ip] (2 * blocks off.toNat n.toNat) s s') (fun _ => True) s := by
  unfold writei
  rw [wp_bind, wp_get]
  refine Wp.ite (fun _ => .of_eq rfl) fun _ => Wp.ite (fun _ => .of_eq rfl) fun _ => ?_
  refine writeLoop_logs.bind fun k s₁ h => ?_
  rw [wp_bind, wp_setCopy, wp_bind, wp_iupdate]
  obtain ⟨bs, hlen, hbs⟩ := h
  refine ⟨bs, hlen, fun b hb => ?_⟩
  rcases List.mem_cons.1 hb with rfl | hb
  · exact .inr (.inr (.inl ⟨ip, List.mem_singleton.2 rfl, rfl⟩))
  · rcases hbs b hb with hold | hmap | ⟨i, hi, -⟩ | hin
    · exact .inl hold
    · exact .inr (.inl hmap)
    · cases hi
    · exact .inr (.inr (.inr hin))

/-- An entry of a directory lies in one block. -/
theorem blocks_entry (i : Nat) :
    blocks (BitVec.ofNat 32 (DIRENT * i)).toNat (BitVec.ofNat 32 DIRENT).toNat = 1 := by
  rw [blocks, if_neg (by decide), BitVec.toNat_ofNat, BitVec.toNat_ofNat]
  simp only [DIRENT, BSIZE]
  omega

/-- `filewrite` writes to four blocks at most. -/
theorem blocks_le {off n : Nat} (h : n ≤ 3 * BSIZE) : blocks off n ≤ 4 := by
  unfold blocks
  split_ifs
  · omega
  · have hmod : off % BSIZE < BSIZE := Nat.mod_lt _ (by decide)
    exact Nat.le_of_lt_succ (Nat.div_lt_of_lt_mul (by omega))

end Xv6.Fs
