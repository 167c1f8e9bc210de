import Xv6.Fs.Calls

/-!
# Block ownership and the size of a transaction

Two results about whole operations: every block has one owner in all states
that operations reach, and an operation fits into its part of the log.
-/

namespace Xv6.Fs

open Run
open Function (update)

variable {sb : Superblock} {first : Nat} {s₀ s s' : State} {ip cwd : Nat} {name : Chars}

/-- The states that completed operations reach, one operation after another. -/
inductive OpRun (sb : Superblock) (s₀ : State) : State → Prop
  | start : OpRun sb s₀ s₀
  | op {s s' : State} {cwd : Nat} {name : Chars} {op : Op} (h : OpRun sb s₀ s)
      (hcwd : cwd ∈ s.refs) (hop : op.Ready s) (hr : (op.run sb cwd name).run s = .ok ((), s')) :
      OpRun sb s₀ s'
  /-- `fork` duplicates the reference to the current directory. -/
  | dup {s : State} {ip : Nat} (h : OpRun sb s₀ s) (hip : ip ∈ s.refs) :
      OpRun sb s₀ { s with refs := ip :: s.refs }
  /-- The log is committed. -/
  | commit {s : State} (h : OpRun sb s₀ s) : OpRun sb s₀ { s with logged := [] }

theorem OpRun.sound (h : OpRun sb s₀ s) (h₀ : Sound sb first s₀) : Sound sb first s := by
  induction h with
  | start => exact h₀
  | op _ hcwd hop hr ih => exact ((op_done ih hcwd hop).of_run hr).1
  | @dup s ip _ hip ih =>
    have hgot := ih.got ip
    rwa [State.got, if_pos hip] at hgot
  | commit _ ih => exact ⟨ih.owned, ih.allocated, ih.synced⟩

/-- A block has one owner, and the bitmap marks the blocks that have an owner
or lie before the data. -/
structure OneOwner (sb : Superblock) (first : Nat) (s : State) : Prop where
  /-- The places are those of the inodes on disk. -/
  disk : s.cur = s.dinode
  inj : ∀ x y, s.slot x ≠ 0 → s.slot x = s.slot y → x = y
  bit : ∀ b < sb.size, s.bitmap b = true ↔ b < first ∨ ∃ x, s.slot x ≠ 0 ∧ s.slot x = b
  /-- Block 0 and the metadata are nobody's. -/
  data : 0 < first ∧ ∀ x, s.slot x ≠ 0 → first ≤ s.slot x ∧ s.slot x < sb.size

theorem Sound.oneOwner (hs : Sound sb first s) : OneOwner sb first s where
  disk := funext hs.cur_eq
  inj _ _ hx hxy := hs.owned.inj hx hxy
  bit b hb := by
    have hpos := hs.owned.pos
    rcases Nat.lt_or_ge b first with hlt | hge
    · exact iff_of_true (hs.owned.reserved hlt hb) (.inl hlt)
    · rw [hs.owned.bit hge hb]
      constructor
      · rintro ⟨x, rfl⟩
        exact .inr ⟨x, by omega, rfl⟩
      · rintro (hlt | ⟨x, -, hx⟩)
        · omega
        · exact ⟨x, hx⟩
  data := ⟨hs.owned.pos, fun _ hx => hs.owned.range hx⟩

/-- What `balloc` answers was free. -/
theorem balloc_fresh (hs : Sound sb first s) :
    Wp (balloc sb) (fun b _ => b = 0 ∨ first ≤ b ∧ b < sb.size ∧ s.bitmap b = false ∧
      ∀ x, s.slot x ≠ b) (fun _ => False) s := by
  refine (balloc_spec hs.owned).post fun b s' h => ?_
  rcases h with ⟨hb, -, -⟩ | ⟨-, hb, hfree, -⟩
  · exact .inl hb
  · obtain ⟨hge, hnone⟩ := hs.owned.fresh hb hfree
    exact .inr ⟨hge, hb, hfree, hnone⟩

/-- `itrunc` frees the blocks of the inode and no others. -/
theorem itrunc_returns (hs : Sound sb first s) (hl : Locked s ip) :
    Wp (itrunc sb ip) (fun _ s' => OneOwner sb first s' ∧
      (∀ x, s'.slot x = if x.1 = ip then 0 else s.slot x) ∧
      ∀ k, s.slot (ip, k) ≠ 0 → s'.bitmap (s.slot (ip, k)) = false) (fun _ => False) s := by
  refine (itrunc_moves [] hs hl (List.mem_singleton.2 rfl)).post fun _ s' h => ?_
  obtain ⟨hmoves, -, htrunc⟩ := h
  have hslot : ∀ x, s'.slot x = if x.1 = ip then 0 else s.slot x := congrFun htrunc.slot
  refine ⟨hmoves.sound.oneOwner, hslot, fun k hk => ?_⟩
  obtain ⟨hge, hlt⟩ := hs.owned.range hk
  have hpos := hs.owned.pos
  by_contra hmark
  obtain ⟨x, hx⟩ := (hmoves.sound.owned.bit hge hlt).1 (by simpa using hmark)
  rw [hslot] at hx
  by_cases hxi : x.1 = ip
  · rw [if_pos hxi] at hx
    omega
  · rw [if_neg hxi] at hx
    exact hxi (congrArg Prod.fst (hs.owned.inj hk hx.symm)).symm

theorem sound_lone {type : I16} (h : type ≠ 0) : Sound tiny 1 (lone type) where
  owned := owned_lone type
  allocated i hi := by
    have hcur : (lone type).cur i = (lone type).dinode i := ite_self ((lone type).dinode i)
    have hone : i = 1 := by
      by_contra hne
      rw [hcur] at hi
      simp [lone, hne, Dinode.zero] at hi
    rw [hone]
    exact allocated_lone h
  synced i hi _ := by
    rw [List.mem_singleton.1 hi]
    exact ⟨rfl, h⟩

/-- With one bitmap block, an operation on a tree of directories passes at most
`MAXOPBLOCKS` blocks to `log_write`. -/
theorem op_within_log (sb : Superblock) (first : Nat) (s : State) (cwd : Nat) (name : Chars)
    (op : Op) (hone : sb.size ≤ BPB) (hs : Sound sb first s) (hcalm : Calm s cwd)
    (hcwd : cwd ∈ s.refs) (hop : op.Ready s) (hchunk : op.Chunked) (hempty : s.logged = []) :
    Wp (op.run sb cwd name) (fun _ s' => s'.logged.dedup.length ≤ MAXOPBLOCKS) Benign s :=
  (op_done hs hcwd hop).post fun _ _ h => (h.2 hcalm hchunk).length_le hempty hone

/-- `mkdir("x")` in an empty root directory. -/
theorem op_within_log_mkdir : Wp ((Op.mkdir [120]).run tiny 1 (dots 0))
    (fun _ s' => s'.logged.dedup.length ≤ MAXOPBLOCKS) Benign (lone T_DIR) :=
  op_within_log tiny 1 (lone T_DIR) 1 (dots 0) (.mkdir [120]) (by decide) (sound_lone (by decide))
    ⟨tree_lone, by rw [(locked_lone (by decide)).cur_eq]; decide⟩ (List.mem_singleton.2 rfl)
    (show (0 : Byte) ∉ [120] by decide) trivial rfl

end Xv6.Fs
