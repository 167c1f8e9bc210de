import Xv6.Jobs.Code

/-!
# What a process of a command does

A logic for the code of one process.  What holds of the process that calls
`fork` has to hold of the child as well, where `fork` returns 0; and whoever
calls `wait` or `exec` is where the command asks for it, with the descriptors
that the command asks for.
-/

namespace Xv6.Jobs

open Conc
open Shell (Tree Word Cmd Sys Program runcmd)
open Function (update)

/-- What the processes of a command may do; no `fork` fails if `K` holds. -/
structure Plan where
  posts : List Post
  backs : List Name
  K : Prop

/-- The process is where the plan has it. -/
def Plan.At (pl : Plan) (l : Local) (job : Option (Word × List Word)) : Prop :=
  ∃ post ∈ pl.posts, post.name = l.name ∧ post.job = job ∧ post.fds = l.fds ∧
    ∀ q ∈ post.waited, q ∈ l.waited

/-- The process has waited for all children that it has to wait for. -/
def Plan.Alone (pl : Plan) (l : Local) : Prop := pl.K → ∀ q ∈ l.kids, q ∈ pl.backs

/-- What a system call needs, if `Q` is to hold afterwards. -/
def pre (pl : Plan) (l : Local) : {β : Type} → Sys β → (β → Local → Prop) → Prop
  | _, .fork, Q =>
    (¬ pl.K → Q (-1) l) ∧ (∀ pid : Nat, 0 < pid → Q pid l.forked) ∧ Q 0 l.child
  | _, .wait, Q =>
    pl.At l none ∧ (l.kids = [] → Q (-1) l) ∧ ∀ q ∈ l.kids, ∀ pid : Nat, Q pid (l.reap q)
  | _, .exec path argv, Q => pl.At l (some (path, argv)) ∧ pl.Alone l ∧ Q () l
  | _, .exit _, _ => pl.Alone l
  | _, o, Q => ∀ a b l', l.call a o = some (b, l') → Q b l'

def wp (pl : Plan) : {α : Type} → Prog Sys α → (α → Local → Prop) → Local → Prop
  | _, .ret a, Q, l => Q a l
  | _, .op o k, Q, l => pre pl l o fun b l' => wp pl (k b) Q l'
  | _, .iter _ _ _, _, _ => False

variable {pl : Plan} {α β : Type}

theorem pre_mono {o : Sys β} {Q Q' : β → Local → Prop} (hQ : ∀ b l, Q b l → Q' b l) {l : Local}
    (h : pre pl l o Q) : pre pl l o Q' := by
  cases o with
  | fork => exact ⟨fun hK => hQ _ _ (h.1 hK), fun pid hpid => hQ _ _ (h.2.1 pid hpid), hQ _ _ h.2.2⟩
  | wait => exact ⟨h.1, fun hk => hQ _ _ (h.2.1 hk), fun q hq pid => hQ _ _ (h.2.2 q hq pid)⟩
  | exec => exact ⟨h.1, h.2.1, hQ _ _ h.2.2⟩
  | exit => exact h
  | close | open_ | dup | pipe | fprintf => exact fun a b l' hx => hQ _ _ (h a b l' hx)

theorem wp_bind {m : Prog Sys α} {f : α → Prog Sys β} {Q : β → Local → Prop} {l : Local}
    (h : wp pl m (fun a l' => wp pl (f a) Q l') l) : wp pl (m.bind f) Q l := by
  induction m generalizing l with
  | ret => exact h
  | op o k ih => exact pre_mono (fun b l' => ih b) h
  | iter => exact h.elim

theorem wp_ite {φ : Prop} [Decidable φ] {m m' : Prog Sys α} {Q : α → Local → Prop} {l : Local}
    (h : φ → wp pl m Q l) (h' : ¬ φ → wp pl m' Q l) : wp pl (if φ then m else m') Q l := by
  by_cases hφ : φ
  · rw [if_pos hφ]
    exact h hφ
  · rw [if_neg hφ]
    exact h' hφ

/-! ## The system calls -/

section calls

variable {l : Local} {Q : Int → Local → Prop} {fd n : Nat}

theorem close_rule (h : ∀ b, Q b (l.setFd fd none)) : pre pl l (.close fd) Q := by
  intro a b l' hx
  obtain ⟨rfl, rfl⟩ := Prod.mk.inj (Option.some.inj hx)
  exact h _

theorem dup_rule {f : Desc} (hf : l.fds fd = some f) (hn : fdalloc l.fds = some n)
    (h : ∀ b, Q b (l.setFd n (some f))) : pre pl l (.dup fd) Q := by
  intro a b l' hx
  simp only [Local.call, hf, hn] at hx
  obtain ⟨rfl, rfl⟩ := Prod.mk.inj (Option.some.inj hx)
  exact h _

theorem open_rule {file : Word} {mode : Nat} (hfail : ∀ b < 0, Q b l)
    (h : ∀ n, fdalloc l.fds = some n → Q (Int.ofNat n) (l.setFd n (some (.opened file mode)))) :
    pre pl l (.open_ file mode) Q := by
  intro a b l' hx
  have hminus : some (-1, l) = some (b, l') → Q b l' := by
    intro hx
    obtain ⟨rfl, rfl⟩ := Prod.mk.inj (Option.some.inj hx)
    exact hfail _ (by decide)
  cases hn : fdalloc l.fds with
  | none =>
    simp only [Local.call, hn] at hx
    exact hminus hx
  | some n =>
    simp only [Local.call, hn] at hx
    cases a with
    | ok =>
      obtain ⟨rfl, rfl⟩ := Prod.mk.inj (Option.some.inj hx)
      exact h n hn
    | fail | reap => exact hminus hx

theorem pipe_rule {Q : Option (Nat × Nat) → Local → Prop} (hfail : Q none l)
    (h : ∀ p₀ p₁, l.ends = some (p₀, p₁) → Q (some (p₀, p₁)) (l.piped p₀ p₁)) :
    pre pl l .pipe Q := by
  intro a b l' hx
  have hnone : some (none, l) = some (b, l') → Q b l' := by
    intro hx
    obtain ⟨rfl, rfl⟩ := Prod.mk.inj (Option.some.inj hx)
    exact hfail
  cases hn : l.ends with
  | none =>
    simp only [Local.call, hn] at hx
    exact hnone hx
  | some ends =>
    obtain ⟨p₀, p₁⟩ := ends
    simp only [Local.call, hn] at hx
    cases a with
    | ok =>
      obtain ⟨rfl, rfl⟩ := Prod.mk.inj (Option.some.inj hx)
      exact h p₀ p₁ hn
    | fail | reap => exact hnone hx

theorem fprintf_rule {Q : Unit → Local → Prop} {fmt : String} {args : List Word} (h : Q () l) :
    pre pl l (.fprintf fd fmt args) Q := by
  intro a b l' hx
  obtain ⟨rfl, rfl⟩ := Prod.mk.inj (Option.some.inj hx)
  exact h

theorem exit_rule {Q : α → Local → Prop} {status : Int} (h : pl.Alone l) :
    wp pl (Shell.exit status) Q l := h

theorem die_rule {Q : α → Local → Prop} {s : String} (h : pl.Alone l) :
    wp pl (Shell.die s) Q l :=
  fprintf_rule (exit_rule h)

theorem fork1_rule (hparent : ∀ pid : Nat, 0 < pid → Q pid l.forked) (hchild : Q 0 l.child) :
    wp pl Shell.fork1 Q l := by
  refine ⟨fun hK => ?_, fun pid hpid => ?_, ?_⟩
  · exact die_rule fun hK' => absurd hK' hK
  · exact hparent pid hpid
  · exact hchild

end calls

/-! ## The descriptors -/

theorem fdalloc_free {fds : Fds} {fd : Nat} (h : fdalloc fds = some fd) : fds fd = none := by
  have hfree : (fds fd).isNone = true := List.find?_some (p := fun fd => (fds fd).isNone) h
  exact Option.isNone_iff_eq_none.1 hfree

/-- The standard descriptor that has been closed is the next one. -/
theorem fdalloc_closed {fds : Fds} {fd : Nat} (h : ∀ k < 2, fds k ≠ none) (hfd : fd < 2) :
    fdalloc (update fds fd none) = some fd := by
  have hsome : ∀ k < 2, (fds k).isNone = false := fun k hk =>
    Option.isNone_eq_false_iff.2 (Option.isSome_iff_ne_none.2 (h k hk))
  have h0 := hsome 0 (by decide)
  have hrange : List.range NOFILE = 0 :: 1 :: (List.range NOFILE).drop 2 := by decide
  unfold fdalloc
  rw [hrange]
  match fd, hfd with
  | 0, _ => rfl
  | 1, _ => simp [update, h0]

/-- The ends of a new pipe. -/
structure Ends (l : Local) (p₀ p₁ : Nat) : Prop where
  ne : p₀ ≠ p₁
  free₀ : l.fds p₀ = none
  free₁ : l.fds p₁ = none

theorem ends_of_eq {l : Local} {p₀ p₁ : Nat} (h : l.ends = some (p₀, p₁)) : Ends l p₀ p₁ := by
  obtain ⟨q₀, h₀, hrest⟩ := Option.bind_eq_some_iff.1 h
  obtain ⟨q₁, h₁, heq⟩ := Option.bind_eq_some_iff.1 hrest
  obtain ⟨rfl, rfl⟩ := Prod.mk.inj (Option.some.inj heq)
  have hfree := fdalloc_free h₁
  have hne : q₀ ≠ q₁ := by
    rintro rfl
    rw [Function.update_self] at hfree
    cases hfree
  refine ⟨hne, fdalloc_free h₀, ?_⟩
  rwa [Function.update_of_ne hne.symm] at hfree

theorem Ends.std {l : Local} {p₀ p₁ : Nat} (h : Ends l p₀ p₁) (hfds : ∀ k < 2, l.fds k ≠ none)
    {fd : Nat} (hfd : fd < 2) : fd ≠ p₀ ∧ fd ≠ p₁ :=
  ⟨fun heq => hfds fd hfd (heq ▸ h.free₀), fun heq => hfds fd hfd (heq ▸ h.free₁)⟩

theorem Ends.piped_fds {l : Local} {p₀ p₁ : Nat} (h : Ends l p₀ p₁) :
    (l.piped p₀ p₁).fds p₀ = some (.pipe l.name l.pipes false) ∧
      (l.piped p₀ p₁).fds p₁ = some (.pipe l.name l.pipes true) := by
  refine ⟨?_, Function.update_self ..⟩
  exact (Function.update_of_ne h.ne ..).trans (Function.update_self ..)

/-- The two ends are closed again. -/
theorem Ends.closed {l : Local} {p₀ p₁ : Nat} (h : Ends l p₀ p₁) :
    update (update (l.piped p₀ p₁).fds p₀ none) p₁ none = l.fds := by
  funext k
  by_cases h₁ : k = p₁
  · rw [h₁, Function.update_self, h.free₁]
  · rw [Function.update_of_ne h₁]
    by_cases h₀ : k = p₀
    · rw [h₀, Function.update_self, h.free₀]
    · rw [Function.update_of_ne h₀]
      exact (Function.update_of_ne h₁ ..).trans (Function.update_of_ne h₀ ..)

/-- One of them has been copied to `fd` before. -/
theorem Ends.moved {l : Local} {p₀ p₁ : Nat} (h : Ends l p₀ p₁) {fd : Nat} (f : Desc)
    (hfd : fd ≠ p₀ ∧ fd ≠ p₁) :
    update (update (update (update (l.piped p₀ p₁).fds fd none) fd (some f)) p₀ none) p₁ none =
      update l.fds fd (some f) := by
  rw [Function.update_idem, Function.update_comm hfd.1, Function.update_comm hfd.2, h.closed]

/-! ## `runcmd` -/

/-- A process that is about to run a command. -/
structure Ready (pl : Plan) (l : Local) (cmd : Tree) : Prop where
  standard : Standard cmd
  fds : ∀ fd < 2, l.fds fd ≠ none
  kids : l.kids = []
  pipes : l.pipes = 0
  posts : ∀ post ∈ posts l.name l.forks l.fds l.waited cmd, post ∈ pl.posts
  backs : ∀ q ∈ backs l.name l.forks cmd, q ∈ pl.backs

theorem Ready.alone {l : Local} {cmd : Tree} (h : Ready pl l cmd) : pl.Alone l := by
  intro _ q hq
  rw [h.kids] at hq
  cases hq

theorem update_ne_none {fds : Fds} {fd k : Nat} {f : Desc} (h : fds k ≠ none) :
    update fds fd (some f) k ≠ none := by
  by_cases hk : k = fd
  · rw [hk, Function.update_self]
    exact Option.some_ne_none f
  · rwa [Function.update_of_ne hk]

section commands

variable {l : Local} {mem : List Byte} {cmd left right : Cmd}

/-- Every process that is about to run the command does as it should. -/
def Runs (pl : Plan) (mem : List Byte) (cmd : Cmd) : Prop :=
  ∀ l, Ready pl l (cmd.tree mem) → wp pl (runcmd mem cmd) (fun _ _ => False) l

theorem runs_exec (argv eargv : List (Option Shell.Pos)) :
    Runs pl mem (.exec argv eargv) := by
  intro l h
  have htree : Cmd.tree mem (.exec argv eargv) = .exec (Shell.args mem argv) := rfl
  rw [htree] at h
  rw [runcmd]
  cases hargs : Shell.args mem argv with
  | nil => exact exit_rule h.alone
  | cons path rest =>
    rw [hargs] at h
    have hpost : ⟨l.name, some (path, path :: rest), l.fds, l.waited⟩ ∈ pl.posts :=
      h.posts _ (List.mem_singleton_self _)
    refine ⟨⟨_, hpost, rfl, rfl, rfl, fun _ hq => hq⟩, h.alone, ?_⟩
    exact fprintf_rule (exit_rule h.alone)

theorem runs_redir (ih : Runs pl mem cmd) (file efile : Shell.Pos) (mode fd : Nat) :
    Runs pl mem (.redir cmd file efile mode fd) := by
  intro l h
  obtain ⟨hfd, hstd⟩ := h.standard
  rw [runcmd]
  refine close_rule fun _ => ?_
  refine open_rule (fun b hb => ?_) fun n hn => ?_
  · exact wp_ite (fun _ => fprintf_rule (exit_rule h.alone)) fun hno => absurd hb hno
  · have hopen : fdalloc (update l.fds fd none) = some n := hn
    rw [fdalloc_closed h.fds hfd] at hopen
    obtain rfl := Option.some.inj hopen
    have hfds : ((l.setFd fd none).setFd fd (some (.opened (Shell.cstring mem file) mode))).fds =
        update l.fds fd (some (.opened (Shell.cstring mem file) mode)) := Function.update_idem ..
    -- the test `open(..) < 0` computes, since a descriptor is a natural number
    refine ih _ ⟨hstd, fun k hk => ?_, h.kids, h.pipes, ?_, h.backs⟩
    · rw [hfds]
      exact update_ne_none (h.fds k hk)
    · rw [hfds]
      exact h.posts

theorem runs_back (ih : Runs pl mem cmd) : Runs pl mem (.back cmd) := by
  intro l h
  rw [runcmd]
  refine wp_bind (fork1_rule (fun pid hpid => ?_) ?_)
  · rw [if_neg (by omega)]
    refine exit_rule fun _ q hq => h.backs q ?_
    have hq : q ∈ (l.forks :: l.name) :: l.kids := hq
    rw [h.kids, List.mem_singleton] at hq
    rw [hq]
    exact List.mem_cons_self
  · rw [if_pos rfl]
    exact ih _ ⟨h.standard, h.fds, rfl, rfl, h.posts, fun q hq => h.backs q (.tail _ hq)⟩

theorem runs_list (ihl : Runs pl mem left) (ihr : Runs pl mem right) :
    Runs pl mem (.list left right) := by
  intro l h
  have hposts := h.posts
  have hbacks := h.backs
  have hat : pl.At l none :=
    ⟨_, hposts _ List.mem_cons_self, rfl, rfl, rfl, fun _ hq => hq⟩
  rw [runcmd]
  refine wp_bind (fork1_rule (fun pid hpid => ?_) ?_)
  · rw [if_neg (by omega)]
    have hkids : l.forked.kids = [l.forks :: l.name] := congrArg _ h.kids
    refine ⟨hat, fun hnil => ?_, fun q hq n => ?_⟩
    · rw [hkids] at hnil
      cases hnil
    · rw [hkids, List.mem_singleton] at hq
      subst hq
      refine ihr _ ⟨h.standard.2, h.fds, ?_, h.pipes, fun post hpost => ?_, fun q hq => ?_⟩
      · show l.forked.kids.erase _ = []
        rw [hkids]
        exact List.erase_cons_head ..
      · exact hposts post (.tail _ (List.mem_append_right _ hpost))
      · exact hbacks q (List.mem_append_right _ hq)
  · rw [if_pos rfl]
    refine ihl _ ⟨h.standard.1, h.fds, rfl, rfl, fun post hpost => ?_, fun q hq => ?_⟩
    · exact hposts post (.tail _ (List.mem_append_left _ hpost))
    · exact hbacks q (List.mem_append_left _ hq)

/-- A child puts an end of the pipe in the place of `fd` and closes the pipe. -/
theorem child_rule {p₀ p₁ fd : Nat} {c : Local} {f : Desc} {e : Nat} (hends : Ends l p₀ p₁)
    (hfds : ∀ k < 2, l.fds k ≠ none) (hc : c.fds = (l.piped p₀ p₁).fds) (hfd : fd < 2)
    (he : (e = p₀ ∨ e = p₁) ∧ c.fds e = some f) {m : Program}
    (h : wp pl m (fun _ _ => False) { c with fds := update l.fds fd (some f) }) :
    wp pl (do
      let _ ← .perform (.close fd)
      let _ ← .perform (.dup e)
      let _ ← .perform (.close p₀)
      let _ ← .perform (.close p₁)
      m) (fun _ _ => False) c := by
  have hne := hends.std hfds hfd
  have hopen : ∀ k < 2, c.fds k ≠ none := fun k hk => by
    have hk' := hends.std hfds hk
    rw [hc]
    show update (update l.fds p₀ _) p₁ _ k ≠ none
    rw [Function.update_of_ne hk'.2, Function.update_of_ne hk'.1]
    exact hfds k hk
  have hmoved : update (update (update (update c.fds fd none) fd (some f)) p₀ none) p₁ none =
      update l.fds fd (some f) := by
    rw [hc]
    exact hends.moved f hne
  refine close_rule fun _ => ?_
  refine dup_rule (f := f) (n := fd) ?_ (fdalloc_closed hopen hfd) fun _ => ?_
  · have hefd : e ≠ fd := by
      rcases he.1 with rfl | rfl
      · exact hne.1.symm
      · exact hne.2.symm
    exact (Function.update_of_ne hefd ..).trans he.2
  · refine close_rule fun _ => close_rule fun _ => ?_
    rw [← hmoved] at h
    exact h

/-- The parent waits for both children. -/
theorem waits_rule {post : Post} {c : Local} {q q' : Name} (hpost : post ∈ pl.posts)
    (hjob : post = ⟨c.name, none, c.fds, c.waited⟩) (hkids : c.kids = [q, q']) :
    wp pl (do
      let _ ← .perform .wait
      let _ ← .perform .wait
      Shell.exit 0 : Program) (fun _ _ => False) c := by
  subst hjob
  refine ⟨⟨_, hpost, rfl, rfl, rfl, fun _ hq => hq⟩, fun hnil => ?_, fun r hr _ => ?_⟩
  · rw [hkids] at hnil
    cases hnil
  · have hlen : (c.reap r).kids.length = 1 := by
      show (c.kids.erase r).length = 1
      rw [List.length_erase_of_mem hr, hkids]
      rfl
    refine ⟨⟨_, hpost, rfl, rfl, rfl, fun _ hq => .tail _ hq⟩, fun hnil => ?_, fun r' hr' _ => ?_⟩
    · rw [hnil] at hlen
      cases hlen
    · have hnil : ((c.reap r).kids.erase r').length = 0 := by
        rw [List.length_erase_of_mem hr', hlen]
      refine exit_rule fun _ x hx => ?_
      have hx : x ∈ (c.reap r).kids.erase r' := hx
      rw [List.length_eq_zero_iff.1 hnil] at hx
      cases hx

theorem runs_pipe (ihl : Runs pl mem left) (ihr : Runs pl mem right) :
    Runs pl mem (.pipe left right) := by
  intro l h
  have hposts := h.posts
  have hbacks := h.backs
  have hpost : ⟨l.name, none, l.fds, l.waited⟩ ∈ pl.posts := hposts _ List.mem_cons_self
  rw [runcmd]
  refine pipe_rule (die_rule h.alone) fun p₀ p₁ heq => ?_
  have hends := ends_of_eq heq
  obtain ⟨hread, hwrite⟩ := hends.piped_fds
  rw [h.pipes] at hread hwrite
  refine wp_bind (m := Shell.fork1) (fork1_rule (fun pid hpid => ?_) ?_)
  · rw [if_neg (by omega)]
    refine wp_bind (m := Shell.fork1) (fork1_rule (fun pid' hpid' => ?_) ?_)
    · rw [if_neg (by omega)]
      refine close_rule fun _ => close_rule fun _ => ?_
      -- the parent has two children, and the descriptors that it began with
      have hclosed : ((((l.piped p₀ p₁).forked.forked).setFd p₀ none).setFd p₁ none).fds = l.fds :=
        hends.closed
      have hkids : ((((l.piped p₀ p₁).forked.forked).setFd p₀ none).setFd p₁ none).kids =
          [(l.forks + 1) :: l.name, l.forks :: l.name] := by
        show _ :: _ :: l.kids = _
        rw [h.kids]
        rfl
      refine waits_rule hpost ?_ hkids
      rw [hclosed]
      rfl
    · rw [if_pos rfl]
      refine child_rule (c := (l.piped p₀ p₁).forked.child) hends h.fds rfl Nat.zero_lt_two
         ⟨.inl rfl, hread⟩ (ihr _ ?_)
      refine ⟨h.standard.2, fun k hk => update_ne_none (h.fds k hk), rfl, rfl,
        fun post hp => ?_, fun q hq => ?_⟩
      · exact hposts post (List.mem_append_right _ hp)
      · exact hbacks q (List.mem_append_right _ hq)
  · rw [if_pos rfl]
    refine child_rule (c := (l.piped p₀ p₁).child) hends h.fds rfl Nat.one_lt_two
       ⟨.inr rfl, hwrite⟩ (ihl _ ?_)
    refine ⟨h.standard.1, fun k hk => update_ne_none (h.fds k hk), rfl, rfl,
      fun post hp => ?_, fun q hq => ?_⟩
    · exact hposts post (List.mem_append_left _ (.tail _ hp))
    · exact hbacks q (List.mem_append_left _ hq)

theorem runs (cmd : Cmd) : Runs pl mem cmd := by
  induction cmd with
  | exec argv eargv => exact runs_exec argv eargv
  | redir cmd file efile mode fd ih => exact runs_redir ih file efile mode fd
  | pipe left right ihl ihr => exact runs_pipe ihl ihr
  | list left right ihl ihr => exact runs_list ihl ihr
  | back cmd ih => exact runs_back ih

end commands

end Xv6.Jobs
