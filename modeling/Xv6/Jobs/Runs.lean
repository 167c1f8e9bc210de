import Xv6.Jobs.Rules
import Xv6.Shell.Redirs

/-!
# Every run of a command

Whatever fails and whoever runs first, the processes of a command have the
descriptors that it asks for.
-/

namespace Xv6.Jobs

open Conc
open Shell (Tree Word Cmd Sys Program runcmd)
open Function (update)

/-- The process has ended, and its parent knows. -/
def Reaped (g : System) (q : Name) : Prop := ∃ y, g q = some y ∧ y.status = .reaped

/-- The process does as the plan has it. -/
def Good (pl : Plan) (x : Process) : Prop :=
  match x.status with
  | .runs code => wp pl code (fun _ _ => False) x.own
  | .program path argv => pl.At x.own (some (path, argv)) ∧ pl.Alone x.own
  | .zombie => pl.Alone x.own
  | .reaped => pl.Alone x.own

/-- What is known of the process `p`. -/
structure Known (pl : Plan) (g : System) (p : Name) (x : Process) : Prop where
  name : x.own.name = p
  good : Good pl x
  waited : ∀ q ∈ x.own.waited, Reaped g q
  kids : ∀ i < x.own.forks, (i :: p) ∈ x.own.kids ∨ Reaped g (i :: p)
  kin : ∀ q ∈ x.own.kids, ∃ i, q = i :: p

structure Inv (pl : Plan) (g : System) : Prop where
  known : ∀ p x, g p = some x → Known pl g p x
  parent : ∀ i p y, g (i :: p) = some y → ∃ x, g p = some x ∧ i < x.own.forks

variable {pl : Plan} {g g' : System} {p q : Name} {x : Process} {l : Local} {s : Status}

theorem put_self (g : System) (l : Local) (s : Status) : g.put l s l.name = some ⟨s, l⟩ :=
  Function.update_self ..

theorem put_of_ne (h : q ≠ l.name) : g.put l s q = g q := Function.update_of_ne h ..

theorem Reaped.put (h : Reaped g q) (hx : g l.name = some x) (hs : x.status ≠ .reaped) :
    Reaped (g.put l s) q := by
  obtain ⟨y, hy, hreaped⟩ := h
  have hne : q ≠ l.name := by
    rintro rfl
    rw [hx] at hy
    obtain rfl := Option.some.inj hy
    exact hs hreaped
  exact ⟨y, (put_of_ne hne).trans hy, hreaped⟩

theorem Known.mono (h : Known pl g p x) (hg : ∀ q, Reaped g q → Reaped g' q) : Known pl g' p x where
  name := h.name
  good := h.good
  waited q hq := hg q (h.waited q hq)
  kids i hi := (h.kids i hi).imp_right (hg _)
  kin := h.kin

/-- One process changes. -/
theorem Inv.put (hinv : Inv pl g) (hx : g l.name = some x) (hs : x.status ≠ .reaped)
    (hforks : x.own.forks ≤ l.forks)
    (hknown : Known pl g l.name ⟨s, l⟩) : Inv pl (g.put l s) := by
  have hmono : ∀ q, Reaped g q → Reaped (g.put l s) q := fun q hq => hq.put hx hs
  refine ⟨fun p y hy => ?_, fun i p y hy => ?_⟩
  · by_cases hp : p = l.name
    · rw [hp, put_self] at hy
      obtain rfl := Option.some.inj hy
      exact hp ▸ hknown.mono hmono
    · rw [put_of_ne hp] at hy
      exact (hinv.known p y hy).mono hmono
  · have hold : ∃ y, g (i :: p) = some y := by
      by_cases hip : i :: p = l.name
      · exact ⟨x, hip ▸ hx⟩
      · exact ⟨y, (put_of_ne hip).symm.trans hy⟩
    obtain ⟨y', hy'⟩ := hold
    obtain ⟨z, hz, hi⟩ := hinv.parent i p y' hy'
    by_cases hp : p = l.name
    · rw [hp, hx] at hz
      obtain rfl := Option.some.inj hz
      exact ⟨_, hp ▸ put_self g l s, Nat.lt_of_lt_of_le hi hforks⟩
    · exact ⟨z, (put_of_ne hp).trans hz, hi⟩

/-- A process is born. -/
theorem Inv.add (hinv : Inv pl g) {i : Nat} (hl : l.name = i :: p) (hfree : g l.name = none)
    (hx : g p = some x) (hi : i < x.own.forks) (hknown : Known pl g l.name ⟨s, l⟩) :
    Inv pl (g.put l s) := by
  have hne : ∀ {q y}, g q = some y → q ≠ l.name := by
    rintro q y hy rfl
    rw [hfree] at hy
    cases hy
  have hmono : ∀ q, Reaped g q → Reaped (g.put l s) q := by
    rintro q ⟨y, hy, hreaped⟩
    exact ⟨y, (put_of_ne (hne hy)).trans hy, hreaped⟩
  refine ⟨fun q y hy => ?_, fun j q y hy => ?_⟩
  · by_cases hq : q = l.name
    · rw [hq, put_self] at hy
      obtain rfl := Option.some.inj hy
      exact hq ▸ hknown.mono hmono
    · rw [put_of_ne hq] at hy
      exact (hinv.known q y hy).mono hmono
  · by_cases hjq : j :: q = l.name
    · obtain ⟨rfl, rfl⟩ := List.cons.inj (hjq.trans hl)
      exact ⟨x, (put_of_ne (hne hx)).trans hx, hi⟩
    · obtain ⟨z, hz, hj⟩ := hinv.parent j q y ((put_of_ne hjq).symm.trans hy)
      exact ⟨z, (put_of_ne (hne hz)).trans hz, hj⟩

/-! ## One step -/

/-- Two processes differ in nothing but their descriptors and pipes. -/
def Same (l l' : Local) : Prop :=
  l'.name = l.name ∧ l'.forks = l.forks ∧ l'.kids = l.kids ∧ l'.waited = l.waited

theorem call_same {β : Type} {a : Outcome} {o : Sys β} {b : β} {l' : Local}
    (h : l.call a o = some (b, l')) : Same l l' := by
  have hrefl : Same l l := ⟨rfl, rfl, rfl, rfl⟩
  let pl : Plan := ⟨[], [], True⟩
  cases o with
  | close fd =>
    have hpre : pre pl l (.close fd) fun _ => Same l := close_rule fun _ => ⟨rfl, rfl, rfl, rfl⟩
    exact hpre a b l' h
  | open_ file mode =>
    have hpre : pre pl l (.open_ file mode) fun _ => Same l :=
      open_rule (fun _ _ => hrefl) fun _ _ => ⟨rfl, rfl, rfl, rfl⟩
    exact hpre a b l' h
  | dup fd =>
    simp only [Local.call] at h
    split at h
    · obtain rfl := (Prod.mk.inj (Option.some.inj h)).2
      exact ⟨rfl, rfl, rfl, rfl⟩
    · obtain rfl := (Prod.mk.inj (Option.some.inj h)).2
      exact hrefl
  | pipe =>
    have hpre : pre pl l .pipe fun _ => Same l :=
      pipe_rule hrefl fun _ _ _ => ⟨rfl, rfl, rfl, rfl⟩
    exact hpre a b l' h
  | fprintf fd fmt args =>
    have hpre : pre pl l (.fprintf fd fmt args) fun _ => Same l := fprintf_rule hrefl
    exact hpre a b l' h
  | fork | wait | exec | exit => cases h

/-- The process itself changes as little as its descriptors. -/
theorem Known.own {l' : Local} {s s' : Status} (h : Known pl g p ⟨s, l⟩) (hsame : Same l l')
    (hgood : Good pl ⟨s', l'⟩) : Known pl g p ⟨s', l'⟩ where
  name := hsame.1.trans h.name
  good := hgood
  waited q hq := h.waited q (hsame.2.2.2 ▸ hq)
  kids := by
    show ∀ i < l'.forks, _ ∈ l'.kids ∨ _
    rw [hsame.2.1, hsame.2.2.1]
    exact h.kids
  kin q hq := h.kin q (hsame.2.2.1 ▸ hq)

/-- A step that changes no more. -/
theorem Inv.same {l' : Local} {s' : Status} (hinv : Inv pl g) (hx : g p = some ⟨s, l⟩)
    (hs : s ≠ .reaped) (hsame : Same l l') (hgood : Good pl ⟨s', l'⟩) : Inv pl (g.put l' s') := by
  have hknown := hinv.known p _ hx
  have hname : l'.name = p := hsame.1.trans hknown.name
  subst hname
  exact hinv.put hx hs (Nat.le_of_eq hsame.2.1.symm) (hknown.own hsame hgood)

/-- `fork`: the parent and the child. -/
theorem Inv.fork (hinv : Inv pl g) (hx : g p = some ⟨s, l⟩) (hs : s ≠ .reaped) {c c' : Program}
    (hparent : wp pl c (fun _ _ => False) l.forked) (hchild : wp pl c' (fun _ _ => False) l.child) :
    Inv pl ((g.put l.forked (.runs c)).put l.child (.runs c')) := by
  have hknown := hinv.known p _ hx
  obtain rfl : l.name = p := hknown.name
  have hfree : g (l.forks :: l.name) = none := by
    cases hg : g (l.forks :: l.name) with
    | none => rfl
    | some y =>
      obtain ⟨z, hz, hlt⟩ := hinv.parent _ _ y hg
      rw [hx] at hz
      obtain rfl := Option.some.inj hz
      exact absurd hlt (Nat.lt_irrefl _)
  have hne : l.forks :: l.name ≠ l.name := List.cons_ne_self _ _
  have hinv' : Inv pl (g.put l.forked (.runs c)) := by
    refine hinv.put hx hs (Nat.le_succ _) ⟨rfl, hparent, hknown.waited, fun i hi => ?_,
      fun q hq => ?_⟩
    · rcases Nat.lt_succ_iff_lt_or_eq.1 hi with hlt | rfl
      · exact (hknown.kids i hlt).imp_left (.tail _)
      · exact .inl List.mem_cons_self
    · rcases List.mem_cons.1 hq with rfl | hq
      · exact ⟨_, rfl⟩
      · exact hknown.kin q hq
  have hfree' : g.put l.forked (.runs c) l.child.name = none :=
    (Function.update_of_ne hne ..).trans hfree
  refine hinv'.add (p := l.name) (i := l.forks) rfl hfree' (put_self g l.forked _)
    (Nat.lt_succ_self _) ⟨rfl, hchild, fun q hq => ?_, fun i hi => ?_,
      fun q hq => ?_⟩
  · exact (hknown.waited q hq).put hx hs
  · cases hi
  · cases hq

/-- `wait`: the child and the parent. -/
theorem Inv.wait (hinv : Inv pl g) (hx : g p = some ⟨s, l⟩) (hs : s ≠ .reaped) {y : Process}
    (hy : g q = some y) (hq : q ∈ l.kids) (hz : y.status = .zombie) {c : Program}
    (hc : wp pl c (fun _ _ => False) (l.reap q)) :
    Inv pl ((g.put y.own .reaped).put (l.reap q) (.runs c)) := by
  have hknown := hinv.known p _ hx
  obtain rfl : l.name = p := hknown.name
  have hchild := hinv.known q y hy
  obtain rfl : y.own.name = q := hchild.name
  obtain ⟨i, hi⟩ := hknown.kin _ hq
  have hne : l.name ≠ y.own.name := by
    rw [hi]
    exact (List.cons_ne_self _ _).symm
  have hzs : y.status ≠ .reaped := by
    rw [hz]
    exact nofun
  have halone : pl.Alone y.own := by
    have hgood := hchild.good
    rw [Good, hz] at hgood
    exact hgood
  have hinv' : Inv pl (g.put y.own .reaped) :=
    hinv.put hy hzs (Nat.le_refl _) ⟨rfl, halone, hchild.waited, hchild.kids, hchild.kin⟩
  have hx' : g.put y.own .reaped l.name = some ⟨s, l⟩ := (put_of_ne hne).trans hx
  have hknown' := hinv'.known _ _ hx'
  have hreaped : Reaped (g.put y.own .reaped) y.own.name := ⟨_, put_self g y.own _, rfl⟩
  refine hinv'.put hx' hs (Nat.le_refl _) ⟨rfl, hc, fun r hr => ?_, fun j hj => ?_, fun r hr => ?_⟩
  · rcases List.mem_cons.1 hr with rfl | hr
    · exact hreaped
    · exact hknown'.waited r hr
  · rcases hknown'.kids j hj with hmem | hdone
    · by_cases hjq : j :: l.name = y.own.name
      · exact .inr (hjq ▸ hreaped)
      · exact .inl ((List.mem_erase_of_ne hjq).2 hmem)
    · exact .inr hdone
  · exact hknown'.kin r (List.mem_of_mem_erase hr)

theorem Process.isZombie_iff : x.isZombie = true ↔ x.status = .zombie := by
  unfold Process.isZombie
  split
  · exact ⟨fun _ => by assumption, fun _ => rfl⟩
  · exact ⟨nofun, fun hs => absurd hs (by assumption)⟩

/-- One system call. -/
theorem Inv.call {β : Type} {a : Outcome} {o : Sys β} {k : β → Program} (hinv : Inv pl g)
    (hx : g p = some ⟨.runs (.op o k), l⟩)
    (hgood : pre pl l o fun b l' => wp pl (k b) (fun _ _ => False) l')
    (hfork : pl.K → Process.Forks ⟨.runs (.op o k), l⟩ → ∃ pid, a = .ok pid)
    (hs : g.call l a o k = some g') : Inv pl g' := by
  have hlocal : ∀ (_ : ∀ a b l', l.call a o = some (b, l') → wp pl (k b) (fun _ _ => False) l')
      (_ : ((l.call a o).map fun r => g.put r.2 (.runs (k r.1))) = some g'), Inv pl g' := by
    intro hgood hs
    obtain ⟨⟨b, l'⟩, hcall, rfl⟩ := Option.map_eq_some_iff.1 hs
    exact hinv.same hx nofun (call_same hcall) (hgood a b l' hcall)
  have hself : Same l l := ⟨rfl, rfl, rfl, rfl⟩
  cases o with
  | close | open_ | dup | pipe | fprintf => exact hlocal hgood hs
  | exit status =>
    obtain rfl := Option.some.inj hs
    exact hinv.same hx nofun ⟨rfl, rfl, rfl, rfl⟩ hgood
  | exec path argv =>
    obtain ⟨hat, halone, hfail⟩ := hgood
    cases a with
    | ok pid =>
      obtain rfl := Option.some.inj hs
      exact hinv.same hx nofun hself ⟨hat, halone⟩
    | fail | reap =>
      obtain rfl := Option.some.inj hs
      exact hinv.same hx nofun hself hfail
  | fork =>
    obtain ⟨hfail, hparent, hchild⟩ := hgood
    have hno : (∀ pid, a ≠ .ok pid) → ¬ pl.K := fun hne hK => by
      obtain ⟨pid, rfl⟩ := hfork hK ⟨k, rfl⟩
      exact hne pid rfl
    cases a with
    | ok pid =>
      have hs : (if 0 < pid then some ((g.put l.forked (.runs (k pid))).put l.child (.runs (k 0)))
        else none) = some g' := hs
      by_cases hpid : 0 < pid
      · rw [if_pos hpid] at hs
        obtain rfl := Option.some.inj hs
        exact hinv.fork hx nofun (hparent pid hpid) hchild
      · rw [if_neg hpid] at hs
        cases hs
    | fail | reap =>
      obtain rfl := Option.some.inj hs
      exact hinv.same hx nofun hself (hfail (hno nofun))
  | wait =>
    obtain ⟨-, hnone, hsome⟩ := hgood
    have hempty : (if l.kids = [] then some (g.put l (.runs (k (-1)))) else none) = some g' →
        Inv pl g' := by
      intro hs
      by_cases hkids : l.kids = []
      · rw [if_pos hkids] at hs
        obtain rfl := Option.some.inj hs
        exact hinv.same hx nofun hself (hnone hkids)
      · rw [if_neg hkids] at hs
        cases hs
    cases a with
    | fail | ok => exact hempty hs
    | reap q pid =>
      simp only [System.call] at hs
      split at hs
      · cases hs
      · rename_i y hy
        split at hs
        · rename_i hq
          obtain rfl := Option.some.inj hs
          exact hinv.wait hx nofun hy hq.1 (Process.isZombie_iff.1 hq.2) (hsome q hq.1 pid)
        · cases hs

/-- One step. -/
theorem Inv.step {a : Outcome} (hinv : Inv pl g)
    (hfork : pl.K → ∀ x, g p = some x → x.Forks → ∃ pid, a = .ok pid)
    (hs : g.step p a = some g') : Inv pl g' := by
  unfold System.step at hs
  split at hs
  · cases hs
  · rename_i x hx
    obtain ⟨s, l⟩ := x
    have hgood := (hinv.known p _ hx).good
    cases s with
    | zombie | reaped => cases hs
    | program path argv =>
      obtain rfl := Option.some.inj hs
      exact hinv.same hx nofun ⟨rfl, rfl, rfl, rfl⟩ hgood.2
    | runs code =>
      cases code with
      | ret e => exact e.elim
      | iter => cases hs
      | op o k => exact hinv.call hx hgood (fun hK ho => hfork hK _ hx ho) hs

theorem inv_of_reach {K : Prop} {g₀ : System} (hinv : Inv pl g₀) (hK : pl.K → K)
    (hg : Reach K g₀ g) : Inv pl g := by
  induction hg with
  | start => exact hinv
  | step _ hfork hs ih => exact ih.step (fun h => hfork (hK h)) hs

/-! ## The line -/

theorem standard_apply {t : Tree} (h : Standard t) (r : Shell.Redir) : Standard (r.apply t) := by
  obtain ⟨mode, file⟩ := r
  cases mode with
  | read => exact ⟨Nat.zero_lt_two, h⟩
  | write => exact ⟨Nat.one_lt_two, h⟩
  | append => exact ⟨Nat.one_lt_two, h⟩

theorem standard_redirs {t : Tree} (h : Standard t) (rs : List Shell.Redir) :
    Standard (rs.foldl Shell.Redir.apply t) := by
  induction rs generalizing t with
  | nil => exact h
  | cons r rs ih => exact ih (standard_apply h r)

theorem standard_backs {t : Tree} (h : Standard t) (n : Nat) : Standard (t.backs n) := by
  induction n generalizing t with
  | zero => exact h
  | succ n ih => exact ih (t := .back t) h

theorem standard_of_derives {X : Shell.Symbol} {ts : List Shell.Tok} {t : Tree}
    (h : Shell.Derives X ts t) : Standard t := by
  induction h with
  | line n _ ih => exact standard_backs ih n
  | list n _ _ ih ihl => exact ⟨standard_backs ih n, ihl⟩
  | single _ ih => exact ih
  | pipe _ _ ihl ihr => exact ⟨ihl, ihr⟩
  | block _ rs ih => exact standard_redirs ih rs
  | simple rs args => exact standard_redirs (t := .exec _) trivial _

/-- The parser redirects nothing else. -/
theorem standard_of_parse {line mem : List Byte} {cmd : Cmd} (h0 : 0 ∉ line)
    (hparse : Shell.parsecmd (line ++ [0]) = .ok (cmd, mem)) : Standard (cmd.tree mem) := by
  by_cases hline : ∃ t, Shell.Line line t
  · obtain ⟨t, ht⟩ := hline
    obtain ⟨cmd', mem', hparse', rfl⟩ := Shell.parsecmd_ok h0 ht
    obtain ⟨rfl, rfl⟩ := Prod.mk.inj (Except.ok.inj (hparse.symm.trans hparse'))
    obtain ⟨ts, -, hts⟩ := ht
    exact standard_of_derives hts
  · obtain ⟨msg, hpanic⟩ := (Shell.parsecmd_line line h0).2.1 fun t ht => hline ⟨t, ht⟩
    rw [hparse] at hpanic
    cases hpanic

/-- What the tree asks for. -/
def plan (K : Prop) (fds : Fds) (t : Tree) : Plan := ⟨posts [] 0 fds [] t, backs [] 0 t, K⟩

theorem inv_start {K : Prop} {mem : List Byte} {cmd : Cmd} {fds : Fds}
    (hstd : Standard (cmd.tree mem)) (hfds : ∀ fd < 2, fds fd ≠ none) :
    Inv (plan K fds (cmd.tree mem)) (start mem cmd fds) := by
  have hcode : wp (plan K fds (cmd.tree mem)) (runcmd mem cmd) (fun _ _ => False)
      ⟨[], fds, 0, 0, [], []⟩ :=
    runs cmd _ ⟨hstd, hfds, rfl, rfl, fun _ hp => hp, fun _ hq => hq⟩
  have hnone : ∀ q, q ≠ [] → start mem cmd fds q = none := fun q hq => put_of_ne hq
  refine ⟨fun p x hx => ?_, fun i p y hy => ?_⟩
  · by_cases hp : p = []
    · subst hp
      obtain rfl := Option.some.inj (hx.symm.trans (put_self _ ⟨[], fds, 0, 0, [], []⟩ _))
      exact ⟨rfl, hcode, nofun, nofun, nofun⟩
    · rw [hnone p hp] at hx
      cases hx
  · rw [hnone _ (List.cons_ne_nil _ _)] at hy
    cases hy

section line

variable {line mem : List Byte} {cmd : Cmd} {fds : Fds}

/-- Whatever fails and whoever runs first, a program that a command line
starts has the arguments and the descriptors that the line asks for, and the
processes that the line has in front of it have ended. -/
theorem programs_wired (h0 : 0 ∉ line) (hparse : Shell.parsecmd (line ++ [0]) = .ok (cmd, mem))
    (hfds : ∀ fd < 2, fds fd ≠ none) (g : System) (hg : Reach False (start mem cmd fds) g)
    (p : Name) (x : Process) (hx : g p = some x) (path : Word) (argv : List Word)
    (hruns : x.status = .program path argv) :
    ∃ post ∈ posts [] 0 fds [] (cmd.tree mem), post.name = p ∧ post.job = some (path, argv) ∧
      post.fds = x.own.fds ∧ ∀ q ∈ post.waited, Reaped g q := by
  have hinv : Inv (plan False fds (cmd.tree mem)) g :=
    inv_of_reach (inv_start (standard_of_parse h0 hparse) hfds) id hg
  have hknown := hinv.known p x hx
  have hgood := hknown.good
  rw [Good, hruns] at hgood
  obtain ⟨⟨post, hpost, hname, hjob, hfds', hwaited⟩, -⟩ := hgood
  exact ⟨post, hpost, hname.trans hknown.name, hjob, hfds', fun q hq =>
    hknown.waited q (hwaited q hq)⟩

end line

/-! ## `a|b` -/

/-- Only `fork` is not one to fail. -/
def System.checked (g : System) (p : Name) (a : Outcome) : Option System :=
  match (g p).map Process.status, a with
  | some (Status.runs (Prog.op Sys.fork _)), .ok _ => g.step p a
  | some (Status.runs (Prog.op Sys.fork _)), _ => none
  | _, _ => g.step p a

theorem reach_of_run {K : Prop} {g₀ : System} {sched : List (Name × Outcome)} (h : Reach K g₀ g)
    (hrun : sched.foldlM (fun g s => System.checked g s.1 s.2) g = some g') : Reach K g₀ g' := by
  induction sched generalizing g with
  | nil => exact Option.some.inj hrun ▸ h
  | cons s sched ih =>
    obtain ⟨g₁, hs, hrun⟩ := Option.bind_eq_some_iff.1 hrun
    have hs : g.checked s.1 s.2 = some g₁ := hs
    refine ih (h.step (p := s.1) (a := s.2) (fun _ x hx hforks => ?_) ?_) hrun
    · obtain ⟨k, hk⟩ := hforks
      unfold System.checked at hs
      rw [hx, Option.map_some, hk] at hs
      cases ha : s.2 with
      | ok pid => exact ⟨pid, rfl⟩
      | fail | reap =>
        rw [ha] at hs
        cases hs
    · unfold System.checked at hs
      split at hs
      · exact hs
      · cases hs
      · exact hs

deriving instance DecidableEq for Shell.Cmd

def pipeLine : Cmd :=
  let word (p : Nat) := some p :: List.replicate 9 none
  .pipe (.exec (word 0) (word 1)) (.exec (word 2) (word 3))

theorem pipeLine_parse : Shell.parsecmd (['a', '|', 'b'].map Shell.ch ++ [0]) =
    .ok (pipeLine, [97, 0, 98, 0]) := by
  decide +kernel

def threeFiles : Fds := fun fd => if fd < 3 then some (.inherited fd) else none

def pipeStart : System := start [97, 0, 98, 0] pipeLine threeFiles

/-- Both programs run. -/
def twoPrograms : List (Name × Outcome) :=
  [([], .ok 0), ([], .ok 4), ([], .ok 5), ([], .ok 0), ([], .ok 0)] ++
    List.replicate 5 ([0], .ok 0) ++ List.replicate 5 ([1], .ok 0)

theorem reach_twoPrograms : ∃ g x, Reach False pipeStart g ∧ g [1] = some x ∧
    x.status = .program [98] [[98]] ∧ x.own.fds 0 = some (.pipe [] 0 false) := by
  have hview : (twoPrograms.foldlM (fun g s => System.checked g s.1 s.2) pipeStart).map
      (fun g => (g [1]).map fun x => decide (x.status.job = some ([98], [[98]]) ∧
        x.own.fds 0 = some (.pipe [] 0 false))) = some (some true) := by
    decide +kernel
  obtain ⟨g, hrun, hg⟩ := Option.map_eq_some_iff.1 hview
  obtain ⟨x, hx, hv⟩ := Option.map_eq_some_iff.1 hg
  obtain ⟨hjob, hfds⟩ := of_decide_eq_true hv
  refine ⟨g, x, reach_of_run .start hrun, hx, ?_, hfds⟩
  unfold Status.job at hjob
  split at hjob
  · rename_i path argv hs
    cases hjob
    exact hs
  · cases hjob

theorem programs_wired_pipeLine : ∃ g x, Reach False pipeStart g ∧ g [1] = some x ∧
    ∃ post ∈ posts [] 0 threeFiles [] (pipeLine.tree [97, 0, 98, 0]), post.name = [1] ∧
      post.job = some ([98], [[98]]) ∧ post.fds = x.own.fds ∧ ∀ q ∈ post.waited, Reaped g q := by
  obtain ⟨g, x, hg, hx, hs, -⟩ := reach_twoPrograms
  exact ⟨g, x, hg, hx, programs_wired (by decide) pipeLine_parse (by decide) g hg [1] x hx _ _ hs⟩

end Xv6.Jobs
