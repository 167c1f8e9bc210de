import Xv6.Opens.Tables

/-!
# The system calls that open files

Between its calls a process has one reference, that of its current directory.
-/

namespace Xv6.Opens

open Conc Conc.Logic
open Fs (I16 U32 Chars T_DIR T_FILE T_DEVICE)

variable {s s' : State} {p : Slot} {e dp ip : Entry} {f : FileNo} {K : Prop} {c : Entry}
  {m : Multiset Entry} {ninodes : Nat}

theorem Has.swap {a b : Entry} (h : Has p c (a ::ₘ b ::ₘ m) s) : Has p c (b ::ₘ a ::ₘ m) s := by
  rwa [Multiset.cons_swap]

/-! ## Paths -/

theorem dirlookup_rule (name : Chars) :
    (logic ninodes K).Triple p (Has p c m) (Code.dirlookup dp name) (Got m p c) := by
  refine Triple.bind (plain_rule plain_inode) fun d => ?_
  refine Triple.ite (fun _ => stop_rule (by decide) _ _) fun _ => ?_
  refine Triple.bind (plain_rule plain_entry) fun r => ?_
  cases r with
  | none => exact fun s hs => hs
  | some k => exact Triple.bind (iget_rule k) fun ip s hs => hs

theorem dirlink_rule (name : Chars) (k : Inum) :
    (logic ninodes K).Triple p (Has p c m) (Code.dirlink dp name k) fun _ => Has p c m := by
  refine Triple.bind (dirlookup_rule name) fun r => ?_
  cases r with
  | none => exact plain_rule plain_setEntry
  | some ip => exact Triple.bind iput_rule fun _ s hs => hs

/-- What `p` has after `namex`. -/
def Reached (p : Slot) (c : Entry) (m : Multiset Entry) (r : Code.Found) (s : State) : Prop :=
  r.elim (Has p c m s) fun x => Has p c (x.1 ::ₘ m) s

theorem step_rule (b : Bool) (w : Code.Walk) :
    (logic ninodes K).Triple p (Has p c (w.ip ::ₘ m)) (Code.step b w)
      (Sum.elim (fun w s => Has p c (w.ip ::ₘ m) s) (Reached p c m)) := by
  unfold Code.step
  cases Fs.skipelem w.path w.name with
  | none => exact Triple.ite (fun _ => Triple.bind iput_rule fun _ s hs => hs) fun _ s hs => hs
  | some r =>
    refine Triple.bind ilock_rule fun _ => ?_
    refine Triple.bind (plain_rule plain_inode) fun d => ?_
    refine Triple.ite (fun _ => Triple.bind iunlockput_rule fun _ s hs => hs) fun _ => ?_
    refine Triple.ite (fun _ => Triple.bind iunlock_rule fun _ s hs => hs) fun _ => ?_
    refine Triple.bind (dirlookup_rule _) fun next => ?_
    cases next with
    | none => exact Triple.bind iunlockput_rule fun _ s hs => hs
    | some next => exact Triple.bind (iunlockput_rule.pre fun s hs => hs.swap) fun _ s hs => hs

theorem namex_rule (hc : c ∈ m) (path : List Byte) (b : Bool) (name : Chars) :
    (logic ninodes K).Triple p (Has p c m) (Code.namex path b name) (Reached p c m) := by
  have hloop : ∀ ip, (logic ninodes K).Triple p (Has p c (ip ::ₘ m))
      (Prog.loop (Code.step b) ⟨path, name, ip⟩) (Reached p c m) := fun ip =>
    Triple.loop (b := ⟨path, name, ip⟩) (fun (w : Code.Walk) s => Has p c (w.ip ::ₘ m) s)
      (fun _ => stable Has.keeps) (step_rule b)
  refine Triple.ite (fun _ => Triple.bind (iget_rule _) hloop) fun _ => ?_
  refine Triple.bind (Triple.bind cwd_rule fun d => Triple.of_pure fun hd => ?_) hloop
  subst hd
  exact (idup_rule hc).post fun r s hs => hs.1 ▸ hs.2

theorem namei_rule (hc : c ∈ m) (path : List Byte) :
    (logic ninodes K).Triple p (Has p c m) (Code.namei path) (Got m p c) := by
  refine Triple.bind (namex_rule hc path _ _) fun r => ?_
  cases r <;> exact fun s hs => hs

/-! ## `create` -/

theorem ialloc_rule (type : I16) :
    (logic ninodes K).Triple p (Has p c m) (Code.ialloc ninodes type) (Got m p c) := by
  refine Triple.findM? (J := fun _ => Has p c m) (Q := fun e => Has p c (e ::ₘ m))
    (fun inum _ => ?_) |>.post fun r s hs => by cases r <;> exact hs
  refine Triple.bind (plain_rule plain_claim) fun b => ?_
  exact Triple.ite (fun _ => Triple.bind (iget_rule _) fun e s hs => hs) fun _ s hs => hs

theorem createEntries_rule (name : Chars) (type : I16) :
    (logic ninodes K).Triple p (Has p c m) (Code.createEntries dp ip name type)
      fun _ => Has p c m := by
  refine Triple.bind (plain_rule plain_inum) fun k => ?_
  refine Triple.ite (fun _ => ?_) fun _ => dirlink_rule name k
  refine Triple.bind (dirlink_rule _ k) fun b => ?_
  refine Triple.ite (fun _ s hs => hs) fun _ => ?_
  refine Triple.bind (plain_rule plain_inum) fun k' => ?_
  refine Triple.bind (dirlink_rule _ k') fun b => ?_
  exact Triple.ite (fun _ s hs => hs) fun _ => dirlink_rule name k

theorem createParent_rule (type : I16) :
    (logic ninodes K).Triple p (Has p c m) (Code.createParent dp type) fun _ => Has p c m := by
  refine Triple.ite (fun _ => ?_) fun _ s hs => hs
  exact Triple.bind (plain_rule plain_inode) fun d => plain_rule plain_setInode

theorem createFail_rule :
    (logic ninodes K).Triple p (Has p c (ip ::ₘ dp ::ₘ m)) (Code.createFail dp ip)
      (Got m p c) := by
  refine Triple.bind (plain_rule plain_inode) fun d => ?_
  refine Triple.bind (plain_rule plain_setInode) fun _ => ?_
  refine Triple.bind iunlockput_rule fun _ => ?_
  exact Triple.bind iunlockput_rule fun _ s hs => hs

theorem create_rule (hc : c ∈ m) (path : List Byte) (type major minor : I16) :
    (logic ninodes K).Triple p (Has p c m) (Code.create ninodes path type major minor)
      (Got m p c) := by
  refine Triple.bind (namex_rule hc path _ _) fun r => ?_
  cases r with
  | none => exact fun s hs => hs
  | some r =>
    refine Triple.bind ilock_rule fun _ => ?_
    refine Triple.bind (dirlookup_rule _) fun r' => ?_
    cases r' with
    | some ip =>
      refine Triple.bind (iunlockput_rule.pre fun s hs => hs.swap) fun _ => ?_
      refine Triple.bind ilock_rule fun _ => ?_
      refine Triple.bind (plain_rule plain_inode) fun d => ?_
      exact Triple.ite (fun _ s hs => hs) fun _ => Triple.bind iunlockput_rule fun _ s hs => hs
    | none =>
      refine Triple.bind (ialloc_rule type) fun r'' => ?_
      cases r'' with
      | none => exact Triple.bind iunlockput_rule fun _ s hs => hs
      | some ip =>
        refine Triple.bind ilock_rule fun _ => ?_
        refine Triple.bind (plain_rule plain_inode) fun d => ?_
        refine Triple.bind (plain_rule plain_setInode) fun _ => ?_
        refine Triple.bind (createEntries_rule _ type) fun b => ?_
        refine Triple.ite (fun _ => ?_) fun _ => createFail_rule
        refine Triple.bind (createParent_rule type) fun _ => ?_
        exact Triple.bind (iunlockput_rule.pre fun s hs => hs.swap) fun _ s hs => hs

/-! ## The calls -/

theorem openInode_rule (hc : c ∈ m) (path : List Byte) (omode : U32) :
    (logic ninodes K).Triple p (Has p c m) (Code.openInode ninodes path omode) (Got m p c) := by
  refine Triple.ite (fun _ => create_rule hc path _ _ _) fun _ => ?_
  refine Triple.bind (namei_rule hc path) fun r => ?_
  cases r with
  | none => exact fun s hs => hs
  | some ip =>
    refine Triple.bind ilock_rule fun _ => ?_
    refine Triple.bind (plain_rule plain_inode) fun d => ?_
    exact Triple.ite (fun _ => Triple.bind iunlockput_rule fun _ s hs => hs) fun _ s hs => hs

/-- What `p` has when it may have got a file and a descriptor. -/
def Opened (p : Slot) (c : Entry) (m : Multiset Entry) (r : Option (FileNo × Fd))
    (s : State) : Prop :=
  Has p c m s ∧ ∀ x ∈ r, Blank p x.1 s

theorem openFile_rule :
    (logic ninodes K).Triple p (Has p c m) Code.openFile (Opened p c m) := by
  have hnone : ∀ s, Has p c m s → Opened p c m none s := fun s hs => ⟨hs, fun x hx => by cases hx⟩
  refine Triple.bind filealloc_rule fun r => ?_
  cases r with
  | none => exact fun s hs => hnone s hs
  | some f =>
    refine Triple.bind fdalloc_rule fun r' => ?_
    cases r' with
    | none =>
      exact Triple.bind (fileclose_rule.pre fun s hs => ⟨hs.1, hs.2.2 rfl⟩) fun _ s hs => hnone s hs
    | some fd =>
      refine fun s hs => ⟨hs.1, fun x hx => ?_⟩
      cases hx
      exact hs.2.1

theorem sys_open_rule (hc : c ∈ m) (path : List Byte) (omode : U32) :
    (logic ninodes K).Triple p (Has p c m) (Code.sys_open ninodes path omode)
      fun _ => Has p c m := by
  refine Triple.bind (openInode_rule hc path omode) fun r => ?_
  cases r with
  | none => exact fun s hs => hs
  | some ip =>
    refine Triple.bind (plain_rule plain_inode) fun d => ?_
    refine Triple.ite (fun _ => Triple.bind iunlockput_rule fun _ s hs => hs) fun _ => ?_
    refine Triple.bind openFile_rule fun r' => ?_
    cases r' with
    | none => exact Triple.bind (iunlockput_rule.pre fun s hs => hs.1) fun _ s hs => hs
    | some x =>
      have htype : (if d.type = T_DEVICE then FileType.device else .inode) = .inode ∨
          (if d.type = T_DEVICE then FileType.device else .inode) = .device := by
        by_cases hd : d.type = T_DEVICE
        · exact .inr (if_pos hd)
        · exact .inl (if_neg hd)
      refine Triple.bind ((fill_rule htype).pre fun s hs => ⟨hs.1, hs.2 x rfl⟩) fun _ => ?_
      exact Triple.bind iunlock_rule fun _ s hs => hs

/-- `mkdir` and `mknod`. -/
theorem make_rule (hc : c ∈ m) (path : List Byte) (type major minor : I16)
    {f : Option Entry → Code Int} (hnone : f none = .ret (-1))
    (hsome : ∀ ip, f (some ip) = (Code.iunlockput ip).bind fun _ => .ret 0) :
    (logic ninodes K).Triple p (Has p c m)
      ((Code.create ninodes path type major minor).bind f) fun _ => Has p c m := by
  refine Triple.bind (create_rule hc path _ _ _) fun r => ?_
  cases r with
  | none =>
    rw [hnone]
    exact fun s hs => hs
  | some ip =>
    rw [hsome]
    exact Triple.bind iunlockput_rule fun _ s hs => hs

theorem exec_rule (hc : c ∈ m) (path : List Byte) :
    (logic ninodes K).Triple p (Has p c m) (Code.exec path) fun _ => Has p c m := by
  refine Triple.bind (namei_rule hc path) fun r => ?_
  cases r with
  | none => exact fun s hs => hs
  | some ip => exact Triple.bind ilock_rule fun _ => Triple.bind iunlockput_rule fun _ s hs => hs

theorem sys_close_rule (fd : Nat) :
    (logic ninodes K).Triple p (Has p c m) (Code.sys_close fd) fun _ => Has p c m := by
  refine Triple.bind (ofile_rule fd) fun r => ?_
  cases r with
  | none => exact fun s hs => hs.1
  | some f =>
    refine Triple.bind ((clear_rule fd).pre fun s hs => ⟨hs.1, hs.2 f rfl⟩) fun _ => ?_
    exact Triple.bind fileclose_rule fun _ s hs => hs

/-- The reference that `chdir` gets takes the place of the old one. -/
theorem sys_chdir_rule (path : List Byte) :
    (logic ninodes K).Triple p (Has p c {c}) (Code.sys_chdir path) fun _ s =>
      ∃ c, Has p c {c} s := by
  refine Triple.bind (namei_rule (Multiset.mem_singleton_self c) path) fun r => ?_
  cases r with
  | none => exact fun s hs => ⟨c, hs⟩
  | some ip =>
    refine Triple.bind ilock_rule fun _ => ?_
    refine Triple.bind (plain_rule plain_inode) fun d => ?_
    refine Triple.ite (fun _ => Triple.bind iunlockput_rule fun _ s hs => ⟨c, hs⟩) fun _ => ?_
    refine Triple.bind iunlock_rule fun _ => ?_
    refine Triple.bind cwd_rule fun d => Triple.of_pure fun hd => ?_
    subst hd
    refine Triple.bind ((iput_rule (m := {ip})).pre fun s hs => hs.swap) fun _ => ?_
    exact Triple.bind setCwd_rule fun _ s hs => ⟨ip, hs⟩

theorem syscall_rule (call : Call) :
    (logic ninodes K).Triple p (Has p c {c}) (Code.syscall ninodes call) fun _ s =>
      ∃ c, Has p c {c} s := by
  have hc : c ∈ ({c} : Multiset Entry) := Multiset.mem_singleton_self c
  cases call with
  | «open» path omode => exact (sys_open_rule hc path omode).post fun _ s hs => ⟨c, hs⟩
  | mkdir path =>
    exact (make_rule hc path T_DIR 0 0 rfl fun _ => rfl).post fun _ s hs => ⟨c, hs⟩
  | mknod path major minor =>
    exact (make_rule hc path T_DEVICE major minor rfl fun _ => rfl).post fun _ s hs => ⟨c, hs⟩
  | chdir path => exact sys_chdir_rule path
  | exec path => exact (exec_rule hc path).post fun _ s hs => ⟨c, hs⟩
  | close fd => exact (sys_close_rule fd).post fun _ s hs => ⟨c, hs⟩

theorem main_rule {Q : Empty → State → Prop} :
    (logic ninodes K).Triple p (fun s => ∃ c, Has p c {c} s) (Code.main ninodes) Q := by
  refine Triple.forever ?_ ?_
  · rintro s s' henv ⟨c, hs⟩
    exact ⟨c, stable Has.keeps s s' henv hs⟩
  · rintro s ⟨c, hs⟩
    refine Triple.bind (plain_rule (c := c) (m := {c}) plain_next) (fun call => ?_) s hs
    exact Triple.bind (syscall_rule call) fun _ s hs => hs

end Xv6.Opens
