import Xv6.Fs.Sound

/-!
# What the system calls do to the disk

Each system call keeps `Sound`, and gives back the references that it has
taken.  If the directories form a tree, the number of blocks that it logs is
bounded.
-/

namespace Xv6.Fs

open Run
open Function (update)

variable {sb : Superblock} {first : Nat} {s s' : State} {ip dp cwd : Nat} {E : String → Prop}
  {inodes held refs : List Nat} {m n : Nat} {path : List Byte} {name : Chars}

/-- The directories form a tree, and the current directory is in it. -/
def Calm (s : State) (cwd : Nat) : Prop := Tree s ∧ (s.cur cwd).type ≠ 0

/-- What a system call leaves. -/
structure Done (sb : Superblock) (first n : Nat) (refs : List Nat) (cwd : Nat) (s s' : State) :
    Prop where
  sound : Sound sb first s'
  refs_eq : s'.refs = refs
  logs : Calm s cwd → Logs sb [] n s s'

theorem Logs.of_two {i j : Nat} (h : Logs sb [i, j] m s s') : Logs sb [] (m + 2) s s' :=
  h.of_inode.of_inode

/-! ## `namei` and `nameiparent` -/

theorem namex_calm {nameiparent : Bool} (hs : Sound sb first s) (hcwd : cwd ∈ s.refs)
    (hz : (0 : Byte) ∉ path) :
    Wp (namex sb cwd path nameiparent name) (fun r s' => Sound sb first s' ∧
      s'.refs = (r.map (·.1)).toList ++ s.refs ∧
        (Calm s cwd → s'.logged = s.logged ∧ Calm s' cwd)) Benign s := by
  by_cases hcalm : Calm s cwd
  · refine ((namex_sound hs hcwd).and (namex_spec hcalm.1 hcwd hcalm.2 hz)).mono
      (fun r s' h => ⟨h.1.1, h.1.2, fun _ => ?_⟩) fun e he => he.1
    have hv := h.2.2.visited
    refine ⟨hv.logged_eq, hcalm.1.visited hv (List.subset_append_right ..), ?_⟩
    rw [hv.files.cur]
    exact hcalm.2
  · exact (namex_sound hs hcwd).post fun r s' h => ⟨h.1, h.2, fun hc => absurd hc hcalm⟩

theorem namei_calm (hs : Sound sb first s) (hcwd : cwd ∈ s.refs) (hz : (0 : Byte) ∉ path) :
    Wp (namei sb cwd path name) (fun r s' => Sound sb first s' ∧ s'.refs = r.toList ++ s.refs ∧
      (Calm s cwd → s'.logged = s.logged ∧ Calm s' cwd)) Benign s := by
  unfold namei
  exact (namex_calm hs hcwd hz).bind fun r s' h => h

/-! ## `link` -/

theorem Calm.visited (hc : Calm s cwd) (hv : Visited s refs s') (hsub : s.refs ⊆ refs) :
    Calm s' cwd := by
  refine ⟨hc.1.visited hv hsub, ?_⟩
  rw [hv.files.cur]
  exact hc.2

theorem Calm.saved {d : Dinode} (hc : Calm s cwd) (hl : Locked s ip)
    (htype : d.type = (s.copy ip).type) (hsize : d.size = (s.copy ip).size)
    (haddrs : d.addrs = (s.copy ip).addrs) : Calm (s.saved sb ip d) cwd := by
  have hcopy : (s.saved sb ip d).copy ip = d := Function.update_self ..
  have hinfo : ∀ j, ((s.saved sb ip d).cur j).type = (s.cur j).type ∧
      ((s.saved sb ip d).cur j).size = (s.cur j).size := by
    intro j
    by_cases hj : j = ip
    · subst hj
      rw [(hl.saved htype).cur_eq, hl.cur_eq, hcopy]
      exact ⟨htype, hsize⟩
    · rw [(only_saved d).cur hj]
      exact ⟨rfl, rfl⟩
  have hslot : (s.saved sb ip d).slot = s.slot := slot_saved hl htype haddrs
  have hentries : (s.saved sb ip d).entries = s.entries := by
    funext i j
    unfold State.entries State.ent State.bytes State.byte
    rw [hslot]
    rfl
  have hcount : (s.saved sb ip d).count = s.count := by
    funext i
    unfold State.count
    rw [(hinfo i).2]
  -- the inode that is saved is referenced, whatever its links are
  have hkept : ∀ {j}, Kept s j → Kept (s.saved sb ip d) j := by
    intro j hk
    unfold Kept
    rw [(hinfo j).1]
    refine ⟨hk.1, ?_⟩
    by_cases hj : j = ip
    · exact .inr (hj ▸ hl.ref)
    · rw [(only_saved d).cur hj]
      exact hk.2
  refine ⟨⟨fun {i} hdir => ?_, fun {i k n} hdir hn => ?_, hkept hc.1.root⟩, ?_⟩
  · rw [(hinfo i).1] at hdir
    obtain ⟨halloc, haligned, hunique⟩ := hc.1.dir hdir
    rw [(hinfo i).2, hentries, hcount]
    refine ⟨fun bn hbn => ?_, haligned, hunique⟩
    rw [(hinfo i).2] at hbn
    rw [hslot]
    exact halloc bn hbn
  · rw [(hinfo i).1] at hdir
    rw [State.dir, hentries, hcount] at hn
    exact hkept (hc.1.named hdir hn)
  · rw [(hinfo cwd).1]
    exact hc.2

theorem unlinkBad_moves (hs : Sound sb first s) (hrefs : s.refs = ip :: refs) (hip : ip ∈ inodes) :
    Wp (unlinkBad sb ip) (fun _ s' => Moves sb first inodes 0 refs [] s s') Benign s := by
  unfold unlinkBad
  refine (ilock_moves inodes [] hs).bind fun _ s₁ h₁ => ?_
  obtain ⟨h₁, hl₁, -⟩ := h₁
  refine (relink_moves [] h₁.sound hl₁ hip).bind fun _ s₂ h₂ => ?_
  obtain ⟨h₂, -, -⟩ := h₂
  have hrefs₂ : s₂.refs = ip :: refs := h₂.refs_eq.trans (h₁.refs_eq.trans hrefs)
  refine (iunlockput_moves inodes [] h₂.sound (hrefs₂ ▸ List.mem_cons_self) hip
    (List.nil_subset _)).bind fun _ s₃ h₃ => ?_
  rw [hrefs₂, List.erase_cons_head] at h₃
  exact (h₁.trans h₂).trans h₃

theorem sys_link_done {old new : List Byte} (hs : Sound sb first s) (hcwd : cwd ∈ s.refs)
    (hold : (0 : Byte) ∉ old) (hnew : (0 : Byte) ∉ new) :
    Wp (sys_link sb cwd old new name) (fun _ s' => Done sb first 4 s.refs cwd s s') Benign s := by
  unfold sys_link
  refine (namei_calm hs hcwd hold).bind fun r s₁ h₁ => ?_
  obtain ⟨hs₁, hrefs₁, hcalm₁⟩ := h₁
  cases r with
  | none => exact ⟨hs₁, hrefs₁, fun hc => .of_eq (hcalm₁ hc).1⟩
  | some ip =>
    have hrefs₁ : s₁.refs = ip :: s.refs := hrefs₁
    refine (ilock_moves [ip] [] hs₁).bind fun _ s₂ h₂ => ?_
    obtain ⟨h₂, hl₂, hv₂⟩ := h₂
    have hrefs₂ := h₂.refs_eq.trans hrefs₁
    rw [wp_bind, wp_get]
    refine Wp.ite (fun _ => ?_) fun _ => ?_
    · refine (iunlockput_moves [ip] [] h₂.sound (hrefs₂ ▸ List.mem_cons_self)
        (List.mem_singleton.2 rfl) (List.nil_subset _)).bind fun _ s₃ h₃ => ?_
      rw [hrefs₂, List.erase_cons_head] at h₃
      refine ⟨h₃.sound, h₃.refs_eq, fun hc => ?_⟩
      refine Logs.mono (m := 1) ?_ (List.Subset.refl _) (by omega)
      exact (Logs.of_eq (n := 0) (hcalm₁ hc).1).trans (h₂.logs.trans h₃.logs).of_inode
    · refine (relink_moves [] h₂.sound hl₂ (List.mem_singleton.2 rfl)).bind fun _ s₃ h₃ => ?_
      obtain ⟨h₃, hl₃, hsaved⟩ := h₃
      refine iunlock_moves.bind fun _ s₃' heq => ?_
      subst heq
      have hrefs₃ := h₃.refs_eq.trans hrefs₂
      have hcalm₃ : Calm s cwd → Calm s₃' cwd := fun hc => by
        rw [hsaved]
        exact (((hcalm₁ hc).2.visited hv₂ (List.Subset.refl _)).saved hl₂ rfl rfl rfl)
      have hcwd₃ : cwd ∈ s₃'.refs := hrefs₃ ▸ List.mem_cons_of_mem _ hcwd
      refine (namex_calm h₃.sound hcwd₃ hnew).bind fun r s₄ h₄ => ?_
      obtain ⟨hs₄, hrefs₄, hcalm₄⟩ := h₄
      -- what has been logged so far
      have hlogs : ∀ {is}, ip ∈ is → Calm s cwd → Logs sb is 0 s s₄ := fun hin hc => by
        have hsub : [ip] ⊆ _ := List.cons_subset.2 ⟨hin, List.nil_subset _⟩
        have h := ((Logs.of_eq (n := 0) (hcalm₁ hc).1).trans (h₂.logs.trans h₃.logs)).trans
          (.of_eq (n := 0) (hcalm₄ (hcalm₃ hc)).1)
        exact h.mono hsub (Nat.le_refl 0)
      cases r with
      | none =>
        have hrefs₄ : s₄.refs = ip :: s.refs := hrefs₄.trans hrefs₃
        refine (unlinkBad_moves hs₄ hrefs₄ (List.mem_singleton.2 rfl)).post fun _ s₅ h₅ => ?_
        refine ⟨h₅.sound, h₅.refs_eq, fun hc => ?_⟩
        refine Logs.mono (m := 1) ?_ (List.Subset.refl _) (by omega)
        exact ((hlogs (List.mem_singleton.2 rfl) hc).trans h₅.logs).of_inode
      | some r =>
        have hrefs₄ : s₄.refs = r.1 :: ip :: s.refs := hrefs₄.trans (congrArg (r.1 :: ·) hrefs₃)
        have hip : ip ∈ [r.1, ip] := by simp
        have hdp : r.1 ∈ [r.1, ip] := by simp
        refine (ilock_moves [r.1, ip] [] hs₄).bind fun _ s₅ h₅ => ?_
        obtain ⟨h₅, hl₅, -⟩ := h₅
        refine (dirlink_moves [] h₅.sound hl₅ hdp (List.nil_subset _)).bind fun l s₆ h₆ => ?_
        obtain ⟨h₆, -⟩ := h₆
        have hrefs₆ := h₆.refs_eq.trans (h₅.refs_eq.trans hrefs₄)
        refine (iunlockput_moves [r.1, ip] [] h₆.sound (hrefs₆ ▸ List.mem_cons_self) hdp
          (List.nil_subset _)).bind fun _ s₇ h₇ => ?_
        rw [hrefs₆, List.erase_cons_head] at h₇
        have hsofar := (h₅.trans h₆).trans h₇
        have hend : ∀ {s'}, Moves sb first [r.1, ip] 0 s.refs [] s₇ s' →
            Done sb first 4 s.refs cwd s s' := fun h₈ =>
          ⟨h₈.sound, h₈.refs_eq, fun hc => ((hlogs hip hc).trans (hsofar.trans h₈).logs).of_two⟩
        refine Wp.ite (fun _ => ?_) fun _ => ?_
        · exact (unlinkBad_moves h₇.sound h₇.refs_eq hip).post fun _ s₈ h₈ => hend h₈
        · refine (iput_moves [r.1, ip] [] h₇.sound (h₇.refs_eq ▸ List.mem_cons_self) hip
            (List.nil_subset _)).bind fun _ s₈ h₈ => hend ?_
          rwa [h₇.refs_eq, List.erase_cons_head] at h₈

/-! ## `unlink` -/

theorem unlinkFail_moves (hs : Sound sb first s) (hrefs : s.refs = dp :: refs) (hdp : dp ∈ inodes) :
    Wp (unlinkFail sb dp) (fun _ s' => Moves sb first inodes 0 refs [] s s') Benign s := by
  unfold unlinkFail
  refine (iunlockput_moves inodes [] hs (hrefs ▸ List.mem_cons_self) hdp
    (List.nil_subset _)).bind fun _ s₁ h₁ => ?_
  rwa [hrefs, List.erase_cons_head] at h₁

theorem unlinkParent_moves (held : List Nat) (hs : Sound sb first s) (hl : Locked s dp) (hdp : dp ∈ inodes) :
    Wp (unlinkParent sb dp ip) (fun _ s' => Moves sb first inodes 0 s.refs held s s') Benign s := by
  unfold unlinkParent
  rw [wp_bind, wp_get]
  refine Wp.ite (fun _ => ?_) fun _ => .refl hs
  exact (relink_moves held hs hl hdp).post fun _ s' h => h.1

theorem unlinkEntry_moves (i : Nat) (hs : Sound sb first s) (hrefs : s.refs = ip :: dp :: refs)
    (hdp : dp ∈ inodes) (hip : ip ∈ inodes) (hld : Locked s dp) (hli : Locked s ip) :
    Wp (unlinkEntry sb dp ip (DIRENT * i)) (fun _ s' => Moves sb first inodes 2 refs [] s s')
      Benign s := by
  unfold unlinkEntry
  refine (zeroEntry_moves i [ip] hs hld hdp).bind fun _ s₁ h₁ => ?_
  obtain ⟨h₁, hld₁⟩ := h₁
  refine (unlinkParent_moves [ip] h₁.sound hld₁ hdp).bind fun _ s₂ h₂ => ?_
  have h₂ := h₁.trans h₂
  rw [h₁.refs_eq] at h₂
  have hrefs₂ := h₂.refs_eq.trans hrefs
  have hleft : s₂.refs.erase dp = ip :: refs := by rw [hrefs₂, erase_second]
  refine (iunlockput_moves inodes [ip] h₂.sound (hrefs₂ ▸ List.mem_cons_of_mem _ List.mem_cons_self)
    hdp ?_).bind fun _ s₃ h₃ => ?_
  · rw [hleft]
    exact List.cons_subset.2 ⟨List.mem_cons_self, List.nil_subset _⟩
  · rw [hleft] at h₃
    have h₃ := h₂.trans h₃
    have hli₃ := h₃.held_locked ip List.mem_cons_self hli
    refine (relink_moves [] h₃.sound hli₃ hip).bind fun _ s₄ h₄ => ?_
    obtain ⟨h₄, -, -⟩ := h₄
    have hrefs₄ : s₄.refs = ip :: refs := h₄.refs_eq.trans h₃.refs_eq
    refine (iunlockput_moves inodes [] h₄.sound (hrefs₄ ▸ List.mem_cons_self) hip
      (List.nil_subset _)).bind fun _ s₅ h₅ => ?_
    rw [hrefs₄, List.erase_cons_head] at h₅
    exact ((h₃.mono (List.Subset.refl _) (Nat.le_refl _) (List.nil_subset _)).trans h₄).trans h₅

theorem sys_unlink_done (hs : Sound sb first s) (hcwd : cwd ∈ s.refs) (hz : (0 : Byte) ∉ path) :
    Wp (sys_unlink sb cwd path name) (fun _ s' => Done sb first 4 s.refs cwd s s') Benign s := by
  unfold sys_unlink
  refine (namex_calm hs hcwd hz).bind fun r s₁ h₁ => ?_
  obtain ⟨hs₁, hrefs₁, hcalm₁⟩ := h₁
  cases r with
  | none => exact ⟨hs₁, hrefs₁, fun hc => .of_eq (hcalm₁ hc).1⟩
  | some r =>
    have hrefs₁ : s₁.refs = r.1 :: s.refs := hrefs₁
    have hone : ∀ {s'}, Moves sb first [r.1] 0 s.refs [] s₁ s' →
        Done sb first 4 s.refs cwd s s' := fun h => by
      refine ⟨h.sound, h.refs_eq, fun hc => Logs.mono (m := 1) ?_ (List.Subset.refl _) (by omega)⟩
      exact (Logs.of_eq (n := 0) (hcalm₁ hc).1).trans h.logs.of_inode
    have hfail : ∀ {t}, Moves sb first [r.1] 0 s₁.refs [] s₁ t →
        Wp (unlinkFail sb r.1) (fun _ s' => Done sb first 4 s.refs cwd s s') Benign t := fun h =>
      (unlinkFail_moves h.sound (h.refs_eq.trans hrefs₁) (List.mem_singleton.2 rfl)).post
        fun _ s' h' => hone (h.trans h')
    refine (ilock_moves [r.1] [] hs₁).bind fun _ s₂ h₂ => ?_
    obtain ⟨h₂, hl₂, -⟩ := h₂
    refine Wp.ite (fun _ => hfail h₂) fun _ => ?_
    refine (dirlookup_keeps h₂.sound hl₂).bind fun l s₃ h₃ => ?_
    rcases h₃ with ⟨rfl, rfl⟩ | ⟨ip, i, rfl, rfl⟩
    · exact hfail h₂
    · have h₃ : Moves sb first [r.1, ip] 0 s₁.refs [] s₁ s₂ :=
        h₂.mono (by simp) (Nat.le_refl 0) (List.Subset.refl _)
      have h₃ := h₃.trans (moves_got h₂.sound ip)
      have hdp : r.1 ∈ [r.1, ip] := by simp
      have hip : ip ∈ [r.1, ip] := by simp
      refine (ilock_moves [r.1, ip] [r.1] h₃.sound).bind fun _ s₄ h₄ => ?_
      obtain ⟨h₄, hl₄, -⟩ := h₄
      have hld₄ := h₄.held_locked r.1 List.mem_cons_self (hl₂.got ip)
      have h₄ := h₃.trans (h₄.mono (List.Subset.refl _) (Nat.le_refl 0) (List.nil_subset _))
      have hrefs₄ : s₄.refs = ip :: r.1 :: s.refs := by
        rw [h₄.refs_eq]
        show ip :: s₂.refs = _
        rw [h₂.refs_eq, hrefs₁]
      have hend : ∀ {s'}, Moves sb first [r.1, ip] 2 s.refs [] s₁ s' →
          Done sb first 4 s.refs cwd s s' := fun h =>
        ⟨h.sound, h.refs_eq, fun hc =>
          Logs.mono (m := 0 + (2 + 2)) ((Logs.of_eq (n := 0) (hcalm₁ hc).1).trans h.logs.of_two)
            (List.Subset.refl _) (by omega)⟩
      have hentry : Wp (unlinkEntry sb r.1 ip (DIRENT * i))
          (fun _ s' => Done sb first 4 s.refs cwd s s') Benign s₄ :=
        (unlinkEntry_moves i h₄.sound hrefs₄ hdp hip hld₄ hl₄).post fun _ s' h => hend (h₄.trans h)
      rw [wp_bind, wp_get]
      refine Wp.ite (fun _ => (by decide : Benign "unlink: nlink < 1")) fun _ =>
        Wp.ite (fun _ => ?_) fun _ => hentry
      refine (isdirempty_keeps h₄.sound hl₄).bind fun empty s₅ h₅ => ?_
      subst h₅
      refine Wp.ite (fun _ => hentry) fun _ => ?_
      refine (iunlockput_moves [r.1, ip] [] h₄.sound (hrefs₄ ▸ List.mem_cons_self) hip
        (List.nil_subset _)).bind fun _ s₆ h₆ => ?_
      rw [hrefs₄, List.erase_cons_head] at h₆
      refine (unlinkFail_moves h₆.sound h₆.refs_eq hdp).post fun _ s₇ h₇ => hend ?_
      exact ((h₄.trans h₆).trans h₇).mono (List.Subset.refl _) (by omega) (List.Subset.refl _)

/-! ## `create` -/

theorem createEntries_moves {type : I16} (hs : Sound sb first s) (hdp : dp ∈ inodes)
    (hip : ip ∈ inodes) (hld : Locked s dp) (hli : Locked s ip) :
    Wp (createEntries sb dp ip name type) (fun _ s' => Moves sb first inodes 6 s.refs [] s s' ∧
      Locked s' dp ∧ Locked s' ip) Benign s := by
  have hlast : ∀ {t k}, Moves sb first inodes k s.refs [] s t → k ≤ 4 → Locked t dp → Locked t ip →
      Wp (do return decide (0 ≤ (← dirlink sb dp name ip))) (fun _ s' =>
        Moves sb first inodes 6 s.refs [] s s' ∧ Locked s' dp ∧ Locked s' ip) Benign t := by
    intro t k h hk hld hli
    refine (dirlink_moves [ip] h.sound hld hdp ?_).bind fun r s' h' => ?_
    · exact List.cons_subset.2 ⟨hli.ref, List.nil_subset _⟩
    · obtain ⟨h', hld'⟩ := h'
      have hli' := h'.held_locked ip List.mem_cons_self hli
      rw [h.refs_eq] at h'
      refine ⟨?_, hld', hli'⟩
      exact (h.trans (h'.mono (List.Subset.refl _) (Nat.le_refl 2) (List.nil_subset _))).mono
        (List.Subset.refl _) (by omega) (List.Subset.refl _)
  -- an entry of the new directory
  have hdot : ∀ {t k dots inum}, Moves sb first inodes k s.refs [] s t → Locked t dp → Locked t ip →
      Wp (dirlink sb ip dots inum) (fun _ s' => Moves sb first inodes (k + 2) s.refs [] s s' ∧
        Locked s' dp ∧ Locked s' ip) Benign t := by
    intro t k dots inum h hld hli
    refine (dirlink_moves [dp] h.sound hli hip ?_).post fun r s' h' => ?_
    · exact List.cons_subset.2 ⟨hld.ref, List.nil_subset _⟩
    · obtain ⟨h', hli'⟩ := h'
      have hld' := h'.held_locked dp List.mem_cons_self hld
      rw [h.refs_eq] at h'
      exact ⟨h.trans (h'.mono (List.Subset.refl _) (Nat.le_refl 2) (List.nil_subset _)), hld', hli'⟩
  have hgrow : ∀ {t k}, k ≤ 6 → Moves sb first inodes k s.refs [] s t →
      Moves sb first inodes 6 s.refs [] s t := fun hk h =>
    h.mono (List.Subset.refl _) hk (List.Subset.refl _)
  unfold createEntries
  refine Wp.ite (fun _ => ?_) fun _ => hlast (.refl hs) (by omega) hld hli
  refine (hdot (.refl hs) hld hli).bind fun r s₁ h₁ => ?_
  obtain ⟨h₁, hld₁, hli₁⟩ := h₁
  refine Wp.ite (fun _ => ⟨hgrow (by omega) h₁, hld₁, hli₁⟩) fun _ => ?_
  refine (hdot h₁ hld₁ hli₁).bind fun r s₂ h₂ => ?_
  obtain ⟨h₂, hld₂, hli₂⟩ := h₂
  refine Wp.ite (fun _ => ⟨hgrow (by omega) h₂, hld₂, hli₂⟩) fun _ => ?_
  exact hlast h₂ (by omega) hld₂ hli₂

theorem createFail_moves (hs : Sound sb first s) (hrefs : s.refs = ip :: dp :: refs)
    (hdp : dp ∈ inodes) (hip : ip ∈ inodes) (hli : Locked s ip) :
    Wp (createFail sb dp ip) (fun r s' => r = none ∧ Moves sb first inodes 0 refs [] s s')
      Benign s := by
  unfold createFail
  refine (relink_moves [] hs hli hip).bind fun _ s₁ h₁ => ?_
  obtain ⟨h₁, -, -⟩ := h₁
  have hrefs₁ := h₁.refs_eq.trans hrefs
  refine (iunlockput_moves inodes [] h₁.sound (hrefs₁ ▸ List.mem_cons_self) hip
    (List.nil_subset _)).bind fun _ s₂ h₂ => ?_
  rw [hrefs₁, List.erase_cons_head] at h₂
  refine (iunlockput_moves inodes [] h₂.sound (h₂.refs_eq ▸ List.mem_cons_self) hdp
    (List.nil_subset _)).bind fun _ s₃ h₃ => ?_
  rw [h₂.refs_eq, List.erase_cons_head] at h₃
  exact ⟨rfl, (h₁.trans h₂).trans h₃⟩

theorem createParent_moves {type : I16} (held : List Nat) (hs : Sound sb first s)
    (hl : Locked s dp) (hdp : dp ∈ inodes) :
    Wp (createParent sb dp type) (fun _ s' => Moves sb first inodes 0 s.refs held s s')
      Benign s := by
  unfold createParent
  refine Wp.ite (fun _ => ?_) fun _ => .refl hs
  exact (relink_moves held hs hl hdp).post fun _ s' h => h.1

/-- What `create` answers: a locked inode, or nothing. -/
def Created (sb : Superblock) (first n : Nat) (cwd : Nat) (s : State) (r : Option Nat)
    (s' : State) : Prop :=
  Done sb first n (r.toList ++ s.refs) cwd s s' ∧ ∀ ip, r = some ip → Locked s' ip

theorem create_done {type major minor : I16} (hs : Sound sb first s) (hcwd : cwd ∈ s.refs)
    (hz : (0 : Byte) ∉ path) :
    Wp (create sb cwd path type major minor name) (Created sb first 8 cwd s) Benign s := by
  unfold create
  refine (namex_calm hs hcwd hz).bind fun r s₁ h₁ => ?_
  obtain ⟨hs₁, hrefs₁, hcalm₁⟩ := h₁
  cases r with
  | none =>
    exact ⟨⟨hs₁, hrefs₁, fun hc => .of_eq (hcalm₁ hc).1⟩, fun ip h => by cases h⟩
  | some r =>
    have hrefs₁ : s₁.refs = r.1 :: s.refs := hrefs₁
    -- the inodes are `r.1` and one more
    have hend : ∀ {ip k refs s'}, k ≤ 6 → Moves sb first [r.1, ip] k refs [] s₁ s' →
        Done sb first 8 refs cwd s s' := fun hk h =>
      ⟨h.sound, h.refs_eq, fun hc =>
        ((Logs.of_eq (n := 0) (hcalm₁ hc).1).trans h.logs.of_two).mono (List.Subset.refl _)
          (by omega)⟩
    refine (ilock_moves [r.1] [] hs₁).bind fun _ s₂ h₂ => ?_
    obtain ⟨h₂, hl₂, -⟩ := h₂
    have hrefs₂ := h₂.refs_eq.trans hrefs₁
    have h₂ : ∀ ip, Moves sb first [r.1, ip] 0 s₁.refs [] s₁ s₂ := fun ip =>
      h₂.mono (by simp) (Nat.le_refl 0) (List.Subset.refl _)
    refine (dirlookup_keeps (h₂ 0).sound hl₂).bind fun l s₃ h₃ => ?_
    rcases h₃ with ⟨rfl, rfl⟩ | ⟨ip, i, rfl, rfl⟩
    · -- a new inode
      refine (ialloc_moves [r.1] [r.1] (h₂ 0).sound).bind fun a s₄ h₄ => ?_
      rcases h₄ with ⟨rfl, rfl⟩ | ⟨ip, rfl, h₄⟩
      · refine (iunlockput_moves [r.1, 0] [] (h₂ 0).sound (hrefs₂ ▸ List.mem_cons_self)
          List.mem_cons_self (List.nil_subset _)).bind fun _ s₅ h₅ => ?_
        rw [hrefs₂, List.erase_cons_head] at h₅
        exact ⟨hend (by omega) ((h₂ 0).trans h₅), fun ip h => by cases h⟩
      · have hdp : r.1 ∈ [r.1, ip] := by simp
        have hip : ip ∈ [r.1, ip] := by simp
        have hld₄ := h₄.held_locked r.1 List.mem_cons_self hl₂
        have h₄ := (h₂ ip).trans (h₄.mono (by simp) (Nat.le_refl 0) (List.nil_subset _))
        have hrefs₄ : s₄.refs = ip :: r.1 :: s.refs := by rw [h₄.refs_eq, hrefs₂]
        refine (ilock_moves [r.1, ip] [r.1] h₄.sound).bind fun _ s₅ h₅ => ?_
        obtain ⟨h₅, hli₅, -⟩ := h₅
        have hld₅ := h₅.held_locked r.1 List.mem_cons_self hld₄
        have h₅ := h₄.trans (h₅.mono (List.Subset.refl _) (Nat.le_refl 0) (List.nil_subset _))
        have hsave := save_moves (E := Benign)
          (f := fun d => { d with major := major, minor := minor, nlink := 1 }) [r.1] h₅.sound
          hli₅ hip (fun _ => rfl) (fun _ => rfl) fun _ => rfl
        refine (wp_bind.1 hsave).bind fun _ s₆' h₆ => h₆.bind fun _ s₆ h₆ => ?_
        obtain ⟨h₆, hli₆, -⟩ := h₆
        have hld₆ := h₆.held_locked r.1 List.mem_cons_self hld₅
        have h₆ := h₅.trans (h₆.mono (List.Subset.refl _) (Nat.le_refl 0) (List.nil_subset _))
        refine (createEntries_moves h₆.sound hdp hip hld₆ hli₆).bind fun ok s₇ h₇ => ?_
        obtain ⟨h₇, hld₇, hli₇⟩ := h₇
        have h₇ := h₆.trans h₇
        have hrefs₇ : s₇.refs = ip :: r.1 :: s.refs := by
          rw [h₇.refs_eq, h₆.refs_eq, h₅.refs_eq, hrefs₄]
        refine Wp.ite (fun _ => ?_) fun _ => ?_
        · refine (createParent_moves [ip] h₇.sound hld₇ hdp).bind fun _ s₈ h₈ => ?_
          have hli₈ := h₈.held_locked ip List.mem_cons_self hli₇
          have h₈ := h₇.trans (h₈.mono (List.Subset.refl _) (Nat.le_refl 0) (List.nil_subset _))
          have hleft : s₈.refs.erase r.1 = ip :: s.refs := by
            rw [h₈.refs_eq, hrefs₇, erase_second]
          have hin : r.1 ∈ s₈.refs := by
            rw [h₈.refs_eq, hrefs₇]
            exact List.mem_cons_of_mem _ List.mem_cons_self
          refine (iunlockput_moves [r.1, ip] [ip] h₈.sound hin hdp ?_).bind fun _ s₉ h₉ => ?_
          · rw [hleft]
            exact List.cons_subset.2 ⟨List.mem_cons_self, List.nil_subset _⟩
          · rw [hleft] at h₉
            refine ⟨hend (Nat.le_refl 6) (h₈.trans
              (h₉.mono (List.Subset.refl _) (Nat.le_refl 0) (List.nil_subset _))), fun j hj => ?_⟩
            cases hj
            exact h₉.held_locked ip List.mem_cons_self hli₈
        · refine (createFail_moves h₇.sound hrefs₇ hdp hip hli₇).post fun _ s₈ h₈ => ?_
          obtain ⟨rfl, h₈⟩ := h₈
          exact ⟨hend (Nat.le_refl 6) (h₇.trans h₈), fun ip h => by cases h⟩
    · -- the name is there
      have h₃ := (h₂ ip).trans (moves_got (h₂ ip).sound ip)
      have hrefs₃ : (s₂.got ip).refs = ip :: r.1 :: s.refs := congrArg (ip :: ·) hrefs₂
      have hdp : r.1 ∈ [r.1, ip] := by simp
      have hip : ip ∈ [r.1, ip] := by simp
      refine (iunlockput_moves [r.1, ip] [] h₃.sound
        (hrefs₃ ▸ List.mem_cons_of_mem _ List.mem_cons_self) hdp (List.nil_subset _)).bind
        fun _ s₄ h₄ => ?_
      rw [hrefs₃, erase_second] at h₄
      have h₄ := h₃.trans h₄
      refine (ilock_moves [r.1, ip] [] h₄.sound).bind fun _ s₅ h₅ => ?_
      obtain ⟨h₅, hli₅, -⟩ := h₅
      have h₅ := h₄.trans h₅
      rw [h₄.refs_eq] at h₅
      rw [wp_bind, wp_get]
      refine Wp.ite (fun _ => ?_) fun _ => ?_
      · refine ⟨hend (by omega) h₅, fun j hj => ?_⟩
        cases hj
        exact hli₅
      · refine (iunlockput_moves [r.1, ip] [] h₅.sound (h₅.refs_eq ▸ List.mem_cons_self) hip
          (List.nil_subset _)).bind fun _ s₆ h₆ => ?_
        rw [h₅.refs_eq, List.erase_cons_head] at h₆
        exact ⟨hend (by omega) (h₅.trans h₆), fun ip h => by cases h⟩

/-- A call that drops the inode that `create` has answered. -/
theorem Created.put {r : Option Nat} {t : State} (h : Created sb first n cwd s r t)
    (hr : r = some ip) : Wp (iunlockput sb ip) (fun _ s' => Done sb first (n + 1) s.refs cwd s s')
      Benign t := by
  subst hr
  have hrefs : t.refs = ip :: s.refs := h.1.refs_eq
  refine (iunlockput_moves [ip] [] h.1.sound (hrefs ▸ List.mem_cons_self)
    (List.mem_singleton.2 rfl) (List.nil_subset _)).post fun _ s' h' => ?_
  rw [hrefs, List.erase_cons_head] at h'
  exact ⟨h'.sound, h'.refs_eq, fun hc => (h.1.logs hc).trans h'.logs.of_inode⟩

theorem Created.none {t : State} (h : Created sb first n cwd s none t) :
    Done sb first (n + 1) s.refs cwd s t :=
  ⟨h.1.sound, h.1.refs_eq, fun hc => (h.1.logs hc).mono (List.Subset.refl _) (Nat.le_succ n)⟩

theorem sys_mkdir_done (hs : Sound sb first s) (hcwd : cwd ∈ s.refs) (hz : (0 : Byte) ∉ path) :
    Wp (sys_mkdir sb cwd path name) (fun _ s' => Done sb first 9 s.refs cwd s s') Benign s := by
  unfold sys_mkdir
  refine (create_done hs hcwd hz).bind fun r s₁ h₁ => ?_
  cases r with
  | none => exact h₁.none
  | some ip => exact (h₁.put rfl).bind fun _ s₂ h₂ => h₂

theorem sys_mknod_done {major minor : I16} (hs : Sound sb first s) (hcwd : cwd ∈ s.refs)
    (hz : (0 : Byte) ∉ path) :
    Wp (sys_mknod sb cwd path major minor name) (fun _ s' => Done sb first 9 s.refs cwd s s')
      Benign s := by
  unfold sys_mknod
  refine (create_done hs hcwd hz).bind fun r s₁ h₁ => ?_
  cases r with
  | none => exact h₁.none
  | some ip => exact (h₁.put rfl).bind fun _ s₂ h₂ => h₂

/-! ## `open` -/

theorem openInode_done {omode : U32} (hs : Sound sb first s) (hcwd : cwd ∈ s.refs)
    (hz : (0 : Byte) ∉ path) :
    Wp (openInode sb cwd path omode name) (Created sb first 8 cwd s) Benign s := by
  unfold openInode
  refine Wp.ite (fun _ => create_done hs hcwd hz) fun _ => ?_
  refine (namei_calm hs hcwd hz).bind fun r s₁ h₁ => ?_
  obtain ⟨hs₁, hrefs₁, hcalm₁⟩ := h₁
  cases r with
  | none => exact ⟨⟨hs₁, hrefs₁, fun hc => .of_eq (hcalm₁ hc).1⟩, fun ip h => by cases h⟩
  | some ip =>
    have hrefs₁ : s₁.refs = ip :: s.refs := hrefs₁
    have hend : ∀ {refs s'}, Moves sb first [ip] 0 refs [] s₁ s' →
        Done sb first 8 refs cwd s s' := fun h =>
      ⟨h.sound, h.refs_eq, fun hc => ((Logs.of_eq (n := 0) (hcalm₁ hc).1).trans
        h.logs.of_inode).mono (List.Subset.refl _) (by omega)⟩
    refine (ilock_moves [ip] [] hs₁).bind fun _ s₂ h₂ => ?_
    obtain ⟨h₂, hl₂, -⟩ := h₂
    have hrefs₂ := h₂.refs_eq.trans hrefs₁
    rw [wp_bind, wp_get]
    refine Wp.ite (fun _ => ?_) fun _ => ?_
    · refine (iunlockput_moves [ip] [] h₂.sound (hrefs₂ ▸ List.mem_cons_self)
        (List.mem_singleton.2 rfl) (List.nil_subset _)).bind fun _ s₃ h₃ => ?_
      rw [hrefs₂, List.erase_cons_head] at h₃
      exact ⟨hend (h₂.trans h₃), fun ip h => by cases h⟩
    · rw [hrefs₁] at h₂
      refine ⟨hend h₂, fun j hj => ?_⟩
      cases hj
      exact hl₂

theorem openTrunc_moves {omode : U32} (hs : Sound sb first s) (hl : Locked s ip)
    (hip : ip ∈ inodes) :
    Wp (openTrunc sb ip omode) (fun _ s' => Moves sb first inodes 0 s.refs [] s s') E s := by
  unfold openTrunc
  rw [wp_bind, wp_get]
  refine Wp.ite (fun _ => ?_) fun _ => .refl hs
  exact (itrunc_moves [] hs hl hip).post fun _ s' h => h.1

theorem Files.filealloc_eq_some {fs fs' : Files} {f : Nat} (h : fs.filealloc = some (f, fs')) :
    (fs'.file f).ref = 1 ∧ (fs'.file f).type = .none ∧ fs'.ofile = fs.ofile := by
  unfold Files.filealloc at h
  cases hfind : (List.range NFILE).find? fun f => (fs.file f).ref = 0 with
  | none =>
    rw [hfind] at h
    cases h
  | some g =>
    rw [hfind] at h
    cases h
    have hfree : (fs.file f).ref = 0 := by simpa using List.find?_some hfind
    simp [Files.set, fs.idle f hfree]

/-- A file that has just been allocated is closed again. -/
theorem fileclose_new {fs : Files} {f : Nat} (href : (fs.file f).ref = 1)
    (htype : (fs.file f).type = .none) :
    Wp (fileclose sb fs f) (fun fs' s' => s' = s ∧ fs'.ofile = fs.ofile) E s := by
  unfold fileclose
  simp only [href, htype]
  exact ⟨rfl, rfl⟩

theorem sys_open_done {fs : Files} {omode : U32} (hs : Sound sb first s) (hcwd : cwd ∈ s.refs)
    (hz : (0 : Byte) ∉ path) :
    Wp (sys_open sb fs cwd path omode name)
      (fun _ s' => ∃ refs, (refs = s.refs ∨ ∃ ip, refs = ip :: s.refs) ∧
        Done sb first 9 refs cwd s s') Benign s := by
  unfold sys_open
  refine (openInode_done hs hcwd hz).bind fun r s₁ h₁ => ?_
  cases r with
  | none => exact ⟨s.refs, .inl rfl, h₁.none⟩
  | some ip =>
    have hrefs₁ : s₁.refs = ip :: s.refs := h₁.1.refs_eq
    rw [wp_bind, wp_get]
    refine Wp.ite (fun _ => ?_) fun _ => ?_
    · exact (h₁.put rfl).bind fun _ s₂ h₂ => ⟨s.refs, .inl rfl, h₂⟩
    · cases halloc : fs.filealloc with
      | none => exact (h₁.put rfl).bind fun _ s₂ h₂ => ⟨s.refs, .inl rfl, h₂⟩
      | some x =>
        obtain ⟨f, fs₁⟩ := x
        obtain ⟨href, htype, -⟩ := Files.filealloc_eq_some halloc
        cases hfd : fs₁.fdalloc f with
        | none =>
          simp only [hfd]
          refine (fileclose_new href htype).bind fun fs₂ s₂ h₂ => ?_
          obtain ⟨rfl, -⟩ := h₂
          exact (h₁.put rfl).bind fun _ s₃ h₃ => ⟨s.refs, .inl rfl, h₃⟩
        | some y =>
          simp only [hfd]
          refine (openTrunc_moves h₁.1.sound (h₁.2 ip rfl) (List.mem_singleton.2 rfl)).bind
            fun _ s₂ h₂ => ?_
          refine iunlock_moves.bind fun _ s₃ h₃ => ?_
          subst h₃
          refine ⟨ip :: s.refs, .inr ⟨ip, rfl⟩, h₂.sound, h₂.refs_eq.trans hrefs₁, fun hc => ?_⟩
          exact (h₁.1.logs hc).trans h₂.logs.of_inode

/-! ## `chdir`, `close`, `exit` and `write` -/

/-- The old current directory is dropped for the new one. -/
theorem sys_chdir_done (hs : Sound sb first s) (hcwd : cwd ∈ s.refs) (hz : (0 : Byte) ∉ path) :
    Wp (sys_chdir sb cwd path name)
      (fun r s' => Done sb first 2 ((r.2 :: s.refs).erase cwd) cwd s s') Benign s := by
  have hsame : (cwd :: s.refs).erase cwd = s.refs := List.erase_cons_head ..
  unfold sys_chdir
  refine (namei_calm hs hcwd hz).bind fun r s₁ h₁ => ?_
  obtain ⟨hs₁, hrefs₁, hcalm₁⟩ := h₁
  cases r with
  | none => exact ⟨hs₁, hrefs₁.trans hsame.symm, fun hc => .of_eq (hcalm₁ hc).1⟩
  | some ip =>
    have hrefs₁ : s₁.refs = ip :: s.refs := hrefs₁
    have hdp : cwd ∈ [ip, cwd] := by simp
    have hip : ip ∈ [ip, cwd] := by simp
    have hend : ∀ {refs s'}, Moves sb first [ip, cwd] 0 refs [] s₁ s' →
        Done sb first 2 refs cwd s s' := fun h =>
      ⟨h.sound, h.refs_eq, fun hc => ((Logs.of_eq (n := 0) (hcalm₁ hc).1).trans
        h.logs.of_two).mono (List.Subset.refl _) (by omega)⟩
    refine (ilock_moves [ip, cwd] [] hs₁).bind fun _ s₂ h₂ => ?_
    obtain ⟨h₂, -, -⟩ := h₂
    have hrefs₂ := h₂.refs_eq.trans hrefs₁
    rw [wp_bind, wp_get]
    refine Wp.ite (fun _ => ?_) fun _ => ?_
    · refine iunlock_moves.bind fun _ s₃ h₃ => ?_
      subst h₃
      refine (iput_moves [ip, cwd] [] h₂.sound (hrefs₂ ▸ List.mem_cons_of_mem _ hcwd) hdp
        (List.nil_subset _)).bind fun _ s₄ h₄ => ?_
      rw [hrefs₂] at h₄
      exact hend (h₂.trans h₄)
    · refine (iunlockput_moves [ip, cwd] [] h₂.sound (hrefs₂ ▸ List.mem_cons_self) hip
        (List.nil_subset _)).bind fun _ s₃ h₃ => ?_
      rw [hrefs₂, List.erase_cons_head] at h₃
      show Done sb first 2 ((cwd :: s.refs).erase cwd) cwd s s₃
      rw [hsame]
      exact hend (h₂.trans h₃)

theorem iput_done (hs : Sound sb first s) (hip : ip ∈ s.refs) :
    Wp (iput sb ip) (fun _ s' => Done sb first 1 (s.refs.erase ip) cwd s s') E s := by
  refine (iput_moves [ip] [] hs hip (List.mem_singleton.2 rfl) (List.nil_subset _)).post
    fun _ s' h => ⟨h.sound, h.refs_eq, fun _ => h.logs.of_inode⟩

/-- Two blocks for each block of the file, and the inode. -/
theorem writeChunk_done {src : Source} {off n1 : U32} (cwd : Nat) (hs : Sound sb first s) :
    Wp (writeChunk sb ip src off n1)
      (fun _ s' => Done sb first (2 * blocks off.toNat n1.toNat + 1) s.refs cwd s s')
      Benign s := by
  unfold writeChunk
  refine (ilock_moves [ip] [] hs).bind fun _ s₁ h₁ => ?_
  obtain ⟨h₁, hl₁, -⟩ := h₁
  refine (writei_moves [] h₁.sound hl₁ (List.mem_singleton.2 rfl)).bind fun r s₂ h₂ => ?_
  obtain ⟨h₂, -, -⟩ := h₂
  refine iunlock_moves.bind fun _ s₃ h₃ => ?_
  subst h₃
  have h := h₁.trans h₂
  rw [Nat.zero_add] at h
  exact ⟨h.sound, h.refs_eq.trans h₁.refs_eq, fun _ => h.logs.of_inode⟩

/-! ## Operations -/

/-- What runs between one `begin_op` and `end_op`; `iput` is the end of
`close` and `exit`. -/
inductive Op
  | write (ip : Nat) (src : Source) (off n1 : U32)
  | link (old new : List Byte)
  | unlink (path : List Byte)
  | open (fs : Files) (path : List Byte) (omode : U32)
  | mkdir (path : List Byte)
  | mknod (path : List Byte) (major minor : I16)
  | chdir (path : List Byte)
  | iput (ip : Nat)

namespace Op

/-- Run a call for what it does. -/
def quietly {α : Type} (c : M α) : M Unit := do
  let _ ← c
  return

/-- An operation of a process with the current directory `cwd`; `name` is what
the buffer for names holds at first. -/
def run (sb : Superblock) (cwd : Nat) (name : Chars) : Op → M Unit
  | write ip src off n1 => quietly (writeChunk sb ip src off n1)
  | link old new => quietly (sys_link sb cwd old new name)
  | unlink path => quietly (sys_unlink sb cwd path name)
  | .open fs path omode => quietly (sys_open sb fs cwd path omode name)
  | mkdir path => quietly (sys_mkdir sb cwd path name)
  | mknod path major minor => quietly (sys_mknod sb cwd path major minor name)
  | chdir path => quietly (sys_chdir sb cwd path name)
  | .iput ip => Fs.iput sb ip

/-- Strings end at a NUL, and files and the current directory are referenced. -/
def Ready (s : State) : Op → Prop
  | write ip _ _ _ => ip ∈ s.refs
  | link old new => (0 : Byte) ∉ old ∧ (0 : Byte) ∉ new
  | unlink path | .open _ path _ | mkdir path | mknod path _ _ | chdir path => (0 : Byte) ∉ path
  | .iput ip => ip ∈ s.refs

/-- `filewrite` writes not more than `maxWrite` bytes at a time. -/
def Chunked : Op → Prop
  | write _ _ _ n1 => n1.toNat ≤ maxWrite
  | _ => True

end Op

theorem Op.quietly_spec {α : Type} {c : M α} {Q : State → Prop} (h : Wp c (fun _ => Q) E s) :
    Wp (quietly c) (fun _ => Q) E s :=
  h.bind fun _ _ hq => hq

theorem op_done {op : Op} (hs : Sound sb first s) (hcwd : cwd ∈ s.refs) (hop : op.Ready s) :
    Wp (op.run sb cwd name) (fun _ s' => Sound sb first s' ∧
      (Calm s cwd → op.Chunked → Logs sb [] 9 s s')) Benign s := by
  have hend : ∀ {k refs s'}, k ≤ 9 → Done sb first k refs cwd s s' →
      Sound sb first s' ∧ (Calm s cwd → op.Chunked → Logs sb [] 9 s s') := fun hk h =>
    ⟨h.sound, fun hc _ => (h.logs hc).mono (List.Subset.refl _) hk⟩
  cases op with
  | write ip src off n1 =>
    refine Op.quietly_spec ((writeChunk_done cwd hs).post fun _ s' h => ⟨h.sound, fun hc hn => ?_⟩)
    have hblocks : blocks off.toNat n1.toNat ≤ 4 := blocks_le hn
    exact (h.logs hc).mono (List.Subset.refl _) (by omega)
  | link old new =>
    exact Op.quietly_spec ((sys_link_done hs hcwd hop.1 hop.2).post fun _ s' h => hend (by omega) h)
  | unlink path =>
    exact Op.quietly_spec ((sys_unlink_done hs hcwd hop).post fun _ s' h => hend (by omega) h)
  | «open» fs path omode =>
    refine Op.quietly_spec ((sys_open_done hs hcwd hop).post fun _ s' h => ?_)
    obtain ⟨refs, -, h⟩ := h
    exact hend (Nat.le_refl 9) h
  | mkdir path =>
    exact Op.quietly_spec ((sys_mkdir_done hs hcwd hop).post fun _ s' h => hend (Nat.le_refl 9) h)
  | mknod path major minor =>
    exact Op.quietly_spec ((sys_mknod_done hs hcwd hop).post fun _ s' h => hend (Nat.le_refl 9) h)
  | chdir path =>
    exact Op.quietly_spec ((sys_chdir_done hs hcwd hop).post fun _ s' h => hend (by omega) h)
  | iput ip => exact (iput_done hs hop).post fun _ s' h => hend (by omega) h

end Xv6.Fs
