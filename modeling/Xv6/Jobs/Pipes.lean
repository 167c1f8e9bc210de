import Xv6.Jobs.Runs

/-!
# Who holds a pipe, and who waits for whom

Only the left-hand side of a `|` can write to its pipe, and only the
right-hand side can read from it.  A process that ends has nobody behind it
but what runs in the background.
-/

namespace Xv6.Jobs

open Conc
open Shell (Tree Word Cmd Sys Program runcmd)
open Function (update)

variable {t : Tree} {p q : Name} {n k fd : Nat} {b : Bool} {fds : Fds} {w : List Name} {post : Post}

/-! ## Names -/

theorem not_suffix_self (i : Nat) (p : Name) : ¬ (i :: p) <:+ p := fun h =>
  absurd h.length_le (Nat.not_succ_le_self _)

theorem suffix_inj {i j : Nat} (hi : (i :: p) <:+ q) (hj : (j :: p) <:+ q) : i = j := by
  have hsuffix := List.suffix_of_suffix_length_le hi hj (Nat.le_refl _)
  exact (List.cons.inj (hsuffix.eq_of_length rfl)).1

theorem suffix_of_post (h : post ∈ posts p n fds w t) : p <:+ post.name := by
  induction t generalizing p n fds w with
  | exec argv =>
    cases argv with
    | nil => cases h
    | cons => rw [List.mem_singleton.1 h]
  | redir cmd file mode fd ih => exact ih h
  | list left right ihl ihr =>
    rcases List.mem_append.1 h with h | h
    · rcases List.mem_cons.1 h with rfl | h
      · exact List.suffix_refl p
      · exact (List.suffix_cons n p).trans (ihl h)
    · exact ihr h
  | pipe left right ihl ihr =>
    rcases List.mem_append.1 h with h | h
    · rcases List.mem_cons.1 h with rfl | h
      · exact List.suffix_refl p
      · exact (List.suffix_cons n p).trans (ihl h)
    · exact (List.suffix_cons (n + 1) p).trans (ihr h)
  | back cmd ih => exact (List.suffix_cons n p).trans (ih h)

/-- The process `p` when it has forked `n`, and those that come after. -/
def Below (p : Name) (n : Nat) (q : Name) : Prop := q = p ∨ ∃ j, n ≤ j ∧ (j :: p) <:+ q

theorem Below.suffix (h : Below (k :: p) n q) : (k :: p) <:+ q := by
  rcases h with rfl | ⟨j, -, hj⟩
  · exact List.suffix_refl _
  · exact (List.suffix_cons j _).trans hj

theorem Below.later (h : Below p (n + 1) q) : ¬ (n :: p) <:+ q := by
  intro hq
  rcases h with rfl | ⟨j, hj, hjq⟩
  · exact not_suffix_self n _ hq
  · exact absurd hj (suffix_inj hq hjq ▸ Nat.not_succ_le_self n)

theorem below_child (h : Below (n :: p) k q) : Below p n q := .inr ⟨n, Nat.le_refl n, h.suffix⟩

theorem below_later (h : Below p (n + 1) q) : Below p n q :=
  h.imp_right fun ⟨j, hj, hq⟩ => ⟨j, Nat.le_of_succ_le hj, hq⟩

/-! ## Descriptors -/

/-- Another descriptor, or another file. -/
theorem of_update {fd' : Nat} {f f' : Desc} (h : update fds fd (some f) fd' = some f') :
    fds fd' = some f' ∨ fd' = fd ∧ f = f' := by
  by_cases hfd : fd' = fd
  · subst hfd
    rw [Function.update_self] at h
    exact .inr ⟨rfl, Option.some.inj h⟩
  · rw [Function.update_of_ne hfd] at h
    exact .inl h

/-- A pipe of a post is one that was there before, or one of the command. -/
theorem below_of_post (h : post ∈ posts p n fds w t) (hfd : post.fds fd = some (.pipe q k b)) :
    fds fd = some (.pipe q k b) ∨ Below p n q := by
  induction t generalizing p n fds w with
  | exec argv =>
    cases argv with
    | nil => cases h
    | cons =>
      rw [List.mem_singleton.1 h] at hfd
      exact .inl hfd
  | redir cmd file mode fd' ih =>
    refine (ih h).imp_left fun hold => ?_
    exact (of_update hold).resolve_right fun hf => nomatch hf.2
  | list left right ihl ihr =>
    rcases List.mem_append.1 h with h | h
    · rcases List.mem_cons.1 h with rfl | h
      · exact .inl hfd
      · exact (ihl h).imp_right below_child
    · exact (ihr h).imp_right below_later
  | pipe left right ihl ihr =>
    have hnew : ∀ {fd' : Nat} {b' : Bool} {m : Nat}, n ≤ m →
        update fds fd' (some (.pipe p 0 b')) fd = some (.pipe q k b) ∨ Below (m :: p) 0 q →
        fds fd = some (.pipe q k b) ∨ Below p n q := by
      intro fd' b' m hm hor
      rcases hor with hold | hbelow
      · refine (of_update hold).imp_right fun hf => ?_
        cases hf.2
        exact .inl rfl
      · exact .inr (.inr ⟨m, hm, hbelow.suffix⟩)
    rcases List.mem_append.1 h with h | h
    · rcases List.mem_cons.1 h with rfl | h
      · exact .inl hfd
      · exact hnew (Nat.le_refl n) (ihl h)
    · exact hnew (Nat.le_succ n) (ihr h)
  | back cmd ih => exact (ih h).imp_right below_child

/-- Descriptors above 1 are those that the command began with. -/
theorem high_of_post (hstd : Standard t) (h : post ∈ posts p n fds w t) (hfd : 2 ≤ fd) :
    post.fds fd = fds fd := by
  have hne : ∀ {F : Fds} {fd' : Nat} {f : Option Desc}, fd' < 2 → update F fd' f fd = F fd :=
    fun hlt => Function.update_of_ne (by omega) ..
  induction t generalizing p n fds w with
  | exec argv =>
    cases argv with
    | nil => cases h
    | cons => rw [List.mem_singleton.1 h]
  | redir cmd file mode fd' ih => exact (ih hstd.2 h).trans (hne hstd.1)
  | list left right ihl ihr =>
    rcases List.mem_append.1 h with h | h
    · rcases List.mem_cons.1 h with rfl | h
      · rfl
      · exact ihl hstd.1 h
    · exact ihr hstd.2 h
  | pipe left right ihl ihr =>
    rcases List.mem_append.1 h with h | h
    · rcases List.mem_cons.1 h with rfl | h
      · rfl
      · exact (ihl hstd.1 h).trans (hne Nat.one_lt_two)
    · exact (ihr hstd.2 h).trans (hne Nat.zero_lt_two)
  | back cmd ih => exact ih hstd h

/-- The pipes of `q` are where they belong: the end to write to is the standard
output behind the child `i` of `q`, and the end to read from is the standard
input behind the next one. -/
def InPlace (i : Nat) (q : Name) (name : Name) (fd : Nat) (b : Bool) : Prop :=
  fd = (if b then 1 else 0) ∧ ((if b then i else i + 1) :: q) <:+ name

theorem exists_inPlace (t : Tree) (p : Name) (n : Nat) (q : Name) :
    ∃ i, ∀ fds w, ∀ post ∈ posts p n fds w t, ∀ fd k b, post.fds fd = some (.pipe q k b) →
      fds fd = some (.pipe q k b) ∨ InPlace i q post.name fd b := by
  induction t generalizing p n with
  | exec argv =>
    refine ⟨0, fun fds w post h fd k b hfd => .inl ?_⟩
    cases argv with
    | nil => cases h
    | cons =>
      rw [List.mem_singleton.1 h] at hfd
      exact hfd
  | redir cmd file mode fd' ih =>
    obtain ⟨i, hi⟩ := ih p n
    refine ⟨i, fun fds w post h fd k b hfd => (hi _ w post h fd k b hfd).imp_left fun hold => ?_⟩
    exact (of_update hold).resolve_right fun hf => nomatch hf.2
  | list left right ihl ihr =>
    obtain ⟨i, hi⟩ := ihl (n :: p) 0
    obtain ⟨j, hj⟩ := ihr p (n + 1)
    by_cases hq : (n :: p) <:+ q
    · refine ⟨i, fun fds w post h fd k b hfd => ?_⟩
      rcases List.mem_append.1 h with h | h
      · rcases List.mem_cons.1 h with rfl | h
        · exact .inl hfd
        · exact hi _ _ post h fd k b hfd
      · exact .inl ((below_of_post h hfd).resolve_right fun hb => hb.later hq)
    · refine ⟨j, fun fds w post h fd k b hfd => ?_⟩
      rcases List.mem_append.1 h with h | h
      · rcases List.mem_cons.1 h with rfl | h
        · exact .inl hfd
        · exact .inl ((below_of_post h hfd).resolve_right fun hb => hq hb.suffix)
      · exact hj _ _ post h fd k b hfd
  | pipe left right ihl ihr =>
    obtain ⟨i, hi⟩ := ihl (n :: p) 0
    obtain ⟨j, hj⟩ := ihr ((n + 1) :: p) 0
    by_cases hqp : q = p
    · -- the pipe is that of this command, and no other is of the same process
      subst hqp
      refine ⟨n, fun fds w post h fd k b hfd => ?_⟩
      rcases List.mem_append.1 h with h | h
      · rcases List.mem_cons.1 h with rfl | h
        · exact .inl hfd
        · have hold := (below_of_post h hfd).resolve_right fun hb => not_suffix_self n q hb.suffix
          refine (of_update hold).imp_right fun hnew => ?_
          cases hnew.2
          exact ⟨hnew.1, suffix_of_post h⟩
      · have hold := (below_of_post h hfd).resolve_right fun hb =>
          not_suffix_self (n + 1) q hb.suffix
        refine (of_update hold).imp_right fun hnew => ?_
        cases hnew.2
        exact ⟨hnew.1, suffix_of_post h⟩
    · have hplain : ∀ {F : Fds} {fd fd' k : Nat} {b b' : Bool},
          update F fd' (some (.pipe p 0 b')) fd = some (.pipe q k b) →
            F fd = some (.pipe q k b) := by
        intro F fd fd' k b b' hold
        refine (of_update hold).resolve_right fun hnew => ?_
        cases hnew.2
        exact hqp rfl
      by_cases hq : (n :: p) <:+ q
      · refine ⟨i, fun fds w post h fd k b hfd => ?_⟩
        rcases List.mem_append.1 h with h | h
        · rcases List.mem_cons.1 h with rfl | h
          · exact .inl hfd
          · exact (hi _ _ post h fd k b hfd).imp_left hplain
        · refine .inl (hplain ((below_of_post h hfd).resolve_right fun hb => ?_))
          exact absurd (suffix_inj hq hb.suffix) (Nat.succ_ne_self n).symm
      · refine ⟨j, fun fds w post h fd k b hfd => ?_⟩
        rcases List.mem_append.1 h with h | h
        · rcases List.mem_cons.1 h with rfl | h
          · exact .inl hfd
          · exact .inl (hplain ((below_of_post h hfd).resolve_right fun hb => hq hb.suffix))
        · exact (hj _ _ post h fd k b hfd).imp_left hplain
  | back cmd ih =>
    obtain ⟨i, hi⟩ := ih (n :: p) 0
    exact ⟨i, fun fds w post h => hi fds w post h⟩

/-! ## Every run -/

/-- The process runs a program or is about to wait for a child. -/
def Process.Stays (x : Process) : Prop :=
  (∃ path argv, x.status = .program path argv) ∨ ∃ k, x.status = .runs (.op .wait k)

theorem Known.stays {pl : Plan} {g : System} {x : Process} (h : Known pl g p x) (hx : x.Stays) :
    ∃ post ∈ pl.posts, post.name = p ∧ post.fds = x.own.fds := by
  have hat : ∃ job, pl.At x.own job := by
    have hgood := h.good
    rcases hx with ⟨path, argv, hs⟩ | ⟨k, hs⟩
    · rw [Good, hs] at hgood
      exact ⟨_, hgood.1⟩
    · rw [Good, hs] at hgood
      exact ⟨_, hgood.1⟩
  obtain ⟨job, post, hpost, hname, -, hfds, -⟩ := hat
  exact ⟨post, hpost, hname.trans h.name, hfds⟩

section line

variable {line mem : List Byte} {cmd : Cmd} {fds : Fds}

/-- The shell's own descriptors stay as they are above 1, and no end of a pipe
is left open where it does not belong: whoever runs a program or waits can
write to a pipe only behind the left-hand side of its `|`, as standard output,
and read from it only behind the right-hand side, as standard input. -/
theorem pipe_ends_in_place (h0 : 0 ∉ line)
    (hparse : Shell.parsecmd (line ++ [0]) = .ok (cmd, mem)) (hfds : ∀ fd < 2, fds fd ≠ none)
    (hplain : ∀ fd q k b, fds fd ≠ some (.pipe q k b)) (q : Name) :
    ∃ i, ∀ g, Reach False (start mem cmd fds) g → ∀ p x, g p = some x → x.Stays →
      (∀ fd, 2 ≤ fd → x.own.fds fd = fds fd) ∧
      ∀ fd k b, x.own.fds fd = some (.pipe q k b) → InPlace i q p fd b := by
  have hstd := standard_of_parse h0 hparse
  obtain ⟨i, hi⟩ := exists_inPlace (cmd.tree mem) [] 0 q
  refine ⟨i, fun g hg p x hx hstays => ?_⟩
  have hinv : Inv (plan False fds (cmd.tree mem)) g :=
    inv_of_reach (inv_start hstd hfds) id hg
  obtain ⟨post, hpost, rfl, hpfds⟩ := (hinv.known p x hx).stays hstays
  rw [← hpfds]
  refine ⟨fun fd hfd => high_of_post hstd hpost hfd, fun fd k b hfd => ?_⟩
  exact (hi fds [] post hpost fd k b hfd).resolve_left (hplain fd q k b)

theorem pipe_ends_in_place_pipeLine : ∃ i, ∃ g, Reach False pipeStart g ∧ ∃ x, g [1] = some x ∧
    x.own.fds 0 = some (.pipe [] 0 false) ∧ InPlace i [] [1] 0 false := by
  have hopen : ∀ fd < 2, threeFiles fd ≠ none := by decide
  have hplain : ∀ fd q k b, threeFiles fd ≠ some (.pipe q k b) := by
    intro fd q k b hfd
    unfold threeFiles at hfd
    split at hfd <;> cases hfd
  obtain ⟨i, hi⟩ := pipe_ends_in_place (by decide) pipeLine_parse hopen hplain []
  obtain ⟨g, x, hg, hx, hs, hfds⟩ := reach_twoPrograms
  exact ⟨i, g, hg, x, hx, hfds, (hi g hg [1] x hx (.inl ⟨_, _, hs⟩)).2 0 0 false hfds⟩

/-- The process has ended. -/
def Status.Over (s : Status) : Prop := s = .zombie ∨ s = .reaped

/-- When no `fork` fails, a process ends only after all that it has started,
and all that these have started, but what runs in the background. -/
theorem foreground_over (h0 : 0 ∉ line)
    (hparse : Shell.parsecmd (line ++ [0]) = .ok (cmd, mem)) (hfds : ∀ fd < 2, fds fd ≠ none)
    (g : System) (hg : Reach True (start mem cmd fds) g) (p : Name) (x : Process)
    (hx : g p = some x) (hover : x.status.Over) (qs : Name) (y : Process)
    (hy : g (qs ++ p) = some y)
    (hfore : ∀ r, r ≠ [] → r <:+ qs → r ++ p ∉ backs [] 0 (cmd.tree mem)) : y.status.Over := by
  have hinv : Inv (plan True fds (cmd.tree mem)) g :=
    inv_of_reach (inv_start (standard_of_parse h0 hparse) hfds) id hg
  induction qs generalizing y with
  | nil =>
    obtain rfl := Option.some.inj (hx.symm.trans hy)
    exact hover
  | cons i qs ih =>
    obtain ⟨z, hz, hi⟩ := hinv.parent i (qs ++ p) y hy
    have hknown := hinv.known _ z hz
    have halone : (plan True fds (cmd.tree mem)).Alone z.own := by
      have hgood := hknown.good
      rcases ih z hz fun r hr hrq => hfore r hr (hrq.trans (List.suffix_cons i qs)) with hs | hs
      · rw [Good, hs] at hgood
        exact hgood
      · rw [Good, hs] at hgood
        exact hgood
    rcases hknown.kids i hi with hkid | ⟨y', hy', hs⟩
    · exact absurd (halone trivial _ hkid) (hfore _ (List.cons_ne_nil _ _) (List.suffix_refl _))
    · obtain rfl := Option.some.inj (hy.symm.trans hy')
      exact .inr hs

end line

/-- Both programs end, and the shell waits for them. -/
def allOver : List (Name × Outcome) :=
  twoPrograms ++ [([0], .ok 0), ([], .reap [0] 4), ([1], .ok 0), ([], .reap [1] 5), ([], .ok 0)]

theorem foreground_over_pipeLine : ∃ g, Reach True pipeStart g ∧ ∃ x y, g [] = some x ∧
    x.status.Over ∧ g [0] = some y ∧ y.status.Over := by
  have hview : (allOver.foldlM (fun g s => System.checked g s.1 s.2) pipeStart).map
      (fun g => ((g []).map Process.isZombie, (g [0]).isSome)) = some (some true, true) := by
    decide +kernel
  obtain ⟨g, hrun, hg⟩ := Option.map_eq_some_iff.1 hview
  obtain ⟨hzombie, hsome⟩ := Prod.mk.inj hg
  obtain ⟨x, hx, hz⟩ := Option.map_eq_some_iff.1 hzombie
  obtain ⟨y, hy⟩ := Option.isSome_iff_exists.1 hsome
  have hreach : Reach True pipeStart g := reach_of_run .start hrun
  have hover : x.status.Over := .inl (Process.isZombie_iff.1 hz)
  exact ⟨g, hreach, x, y, hx, hover, hy, foreground_over (by decide) pipeLine_parse (by decide) g
    hreach [] x hx hover [0] y hy fun r _ _ => List.not_mem_nil⟩

end Xv6.Jobs
