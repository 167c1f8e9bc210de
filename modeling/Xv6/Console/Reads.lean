import Xv6.Console.Code
import Xv6.Conc.Guarantee

/-!
# What readers get

The indices of the console always belong to the text that was typed, and
whenever the lock is free the users have got the part of it that was taken.
What a call of `consoleread` has taken and stored is its own business until it
returns (`Turn.Sofar`, `Ended.Right`).
-/

namespace Xv6.Console

open Conc Conc.Logic

variable {P : Type} {t : P}

/-! ## What holds -/

/-- What a call that returns has done. -/
structure Ended.Right (d : Ended) : Prop where
  length : d.r = BitVec.ofNat 32 d.got.length
  le : d.got.length ≤ d.n.toInt.toNat
  /-- A call never goes past a newline, and hands out no end of file. -/
  line : newline ∉ d.got.dropLast
  chars : ctrl 'D' ∉ d.got
  cause : d.taken = d.got ∧ (d.got.length = d.n.toInt.toNat ∨ d.got.getLast? = some newline ∨
      d.got ≠ [] ∧ d.next = some (ctrl 'D')) ∨
    d.taken = [ctrl 'D'] ∧ d.got = []

/-- What a call has done that has `m` characters to go. -/
structure Turn.Sofar (n m : I32) (x : Turn) : Prop where
  call : x.n = n
  taken : x.taken = x.got
  left : m = n - BitVec.ofNat 32 x.got.length
  le : x.got.length ≤ n.toInt.toNat
  line : newline ∉ x.got
  chars : ctrl 'D' ∉ x.got

/-- What a reader that has the lock can see. -/
structure View where
  cons : Cons
  ed : Editor
  delivered : List Byte
  turn : Turn

/-- The users have got what was taken. -/
def View.Even (v : View) : Prop := v.delivered = v.ed.delivered

def State.view (t : P) (s : State P) : View := ⟨s.cons, text s.history, s.delivered, s.turn t⟩

/-- The invariant. -/
structure Inv (s : State P) : Prop where
  tracks : Tracks s.cons (text s.history)
  even : s.lock = none → s.delivered = (text s.history).delivered
  ended : ∀ d ∈ s.ended, d.Right

/-- What a thread may do. -/
structure Guar (t : P) (s s' : State P) : Prop where
  inv : Inv s → Inv s'
  held : ∀ u, u ≠ t → s.lock = some u → s'.lock = some u ∧ s'.view u = s.view u
  turn : ∀ u, u ≠ t → s'.turn u = s.turn u

/-- The reader is killed, or has no place for the character in its memory. -/
def disturbed {β : Type} (p : P) (s : State P) : Op P β → Bool
  | .killed => s.killed p
  | .copyout dst _ => !s.mapped p dst
  | _ => false

/-- The condition on a run: nothing ends a call of `consoleread` early. -/
def Undisturbed : Machine.OpPred (Op P) (State P) P := fun _ p o s => disturbed p s o = false

instance {β : Type} (p : P) (o : Op P β) (s : State P) : Decidable (Undisturbed β p o s) :=
  inferInstanceAs (Decidable (disturbed p s o = false))

theorem text_concat (history : List Event) (e : Event) :
    text (history ++ [e]) = (text history).step e := List.foldl_concat ..

/-! ## The numbers of a call -/

theorem toInt_sub {n : I32} {k : Nat} (h : k ≤ n.toInt.toNat) :
    (n - BitVec.ofNat 32 k).toInt.toNat = n.toInt.toNat - k := by
  have hn := n.isLt
  rw [BitVec.toInt_eq_toNat_cond] at h ⊢
  rw [BitVec.toInt_eq_toNat_cond]
  simp only [BitVec.toNat_sub, BitVec.toNat_ofNat]
  split at h <;> split <;> omega

/-- A call returns as many characters as it has stored. -/
theorem Ended.right_of {n m : I32} {x : Turn} {next : Option Byte} (hcall : x.n = n)
    (hleft : m = n - BitVec.ofNat 32 x.got.length) (hle : x.got.length ≤ n.toInt.toNat)
    (hline : newline ∉ x.got.dropLast) (hchars : ctrl 'D' ∉ x.got)
    (hcause : x.taken = x.got ∧ (x.got.length = n.toInt.toNat ∨ x.got.getLast? = some newline ∨
        x.got ≠ [] ∧ next = some (ctrl 'D')) ∨
      x.taken = [ctrl 'D'] ∧ x.got = []) :
    Ended.Right ⟨x, n - m, next⟩ := by
  subst hcall
  refine ⟨?_, hle, hline, hchars, hcause⟩
  show x.n - m = _
  rw [hleft]
  bv_omega

namespace Turn.Sofar

variable {n m : I32} {x : Turn} {c : Byte}

theorem start (n : I32) : Sofar n n ⟨n, [], []⟩ := ⟨rfl, rfl, by simp, by simp, by simp, by simp⟩

theorem length_lt (h : Sofar n m x) (hm : 0 < m.toInt) : x.got.length < n.toInt.toNat := by
  have hleft := toInt_sub h.le
  rw [← h.left] at hleft
  omega

/-- The call goes on. -/
theorem right (h : Sofar n m x) {next : Option Byte}
    (hcause : x.got.length = n.toInt.toNat ∨ x.got ≠ [] ∧ next = some (ctrl 'D')) :
    Ended.Right ⟨x, n - m, next⟩ := by
  refine Ended.right_of h.call h.left h.le (fun hmem => ?_) h.chars (.inl ⟨h.taken, ?_⟩)
  · exact h.line (List.dropLast_subset _ hmem)
  · rcases hcause with hfull | hkept
    · exact .inl hfull
    · exact .inr (.inr hkept)

/-- The whole request is served. -/
theorem right_full (h : Sofar n m x) (hm : ¬ m.toInt > 0) (next : Option Byte) :
    Ended.Right ⟨x, n - m, next⟩ := by
  have hleft := toInt_sub h.le
  rw [← h.left] at hleft
  have hle := h.le
  exact h.right (.inl (by omega))

/-- `n < target` compares the numbers without sign. -/
theorem lt_iff (h : Sofar n m x) : m < n ↔ x.got ≠ [] := by
  have hle := h.le
  have hn := n.isLt
  rw [BitVec.lt_def, h.left, ← List.length_pos_iff]
  rw [BitVec.toInt_eq_toNat_cond] at hle
  simp only [BitVec.toNat_sub, BitVec.toNat_ofNat]
  split at hle <;> omega

/-- One more character. -/
theorem next_left (h : Sofar n m x) : m - 1 = n - BitVec.ofNat 32 (x.got ++ [c]).length := by
  rw [h.left, List.length_append, List.length_singleton, BitVec.ofNat_add]
  bv_omega

theorem next (h : Sofar n m x) (hm : 0 < m.toInt) (heof : c ≠ ctrl 'D') (hline : c ≠ newline) :
    Sofar n (m - 1) ⟨x.n, x.taken ++ [c], x.got ++ [c]⟩ where
  call := h.call
  taken := by rw [h.taken]
  left := h.next_left
  le := by
    have hlt := h.length_lt hm
    simp only [List.length_append, List.length_singleton]
    omega
  line hmem := by
    rcases List.mem_append.1 hmem with hmem | hmem
    · exact h.line hmem
    · exact hline (List.mem_singleton.1 hmem).symm
  chars hmem := by
    rcases List.mem_append.1 hmem with hmem | hmem
    · exact h.chars hmem
    · exact heof (List.mem_singleton.1 hmem).symm

/-- A newline ends the call. -/
theorem right_line (h : Sofar n m x) (hm : 0 < m.toInt) (next : Option Byte) :
    Ended.Right ⟨⟨x.n, x.taken ++ [newline], x.got ++ [newline]⟩, n - (m - 1), next⟩ := by
  have hlt := h.length_lt hm
  refine Ended.right_of h.call h.next_left ?_ ?_ (fun hmem => ?_) (.inl ⟨?_, ?_⟩)
  · simp only [List.length_append, List.length_singleton]
    omega
  · rw [List.dropLast_concat]
    exact h.line
  · rcases List.mem_append.1 hmem with hmem | hmem
    · exact h.chars hmem
    · exact absurd (List.mem_singleton.1 hmem) (by decide)
  · rw [h.taken]
  · simp

/-- An end of file at the start of a call. -/
theorem right_eof (h : Sofar n m x) (hlt : ¬ m < n) (next : Option Byte) :
    Ended.Right ⟨⟨x.n, x.taken ++ [ctrl 'D'], x.got⟩, n - m, next⟩ := by
  have hnil : x.got = [] := by
    by_contra hne
    exact hlt (h.lt_iff.2 hne)
  have hleft := h.left
  refine Ended.right_of h.call hleft h.le ?_ h.chars (.inr ⟨?_, hnil⟩)
  · simp [hnil]
  · show x.taken ++ [ctrl 'D'] = [ctrl 'D']
    rw [h.taken, hnil]
    rfl

end Turn.Sofar

/-! ## The logic -/

variable [DecidableEq P]

abbrev logic (P : Type) [DecidableEq P] : Logic (machine P) :=
  ofGuarantee (machine P) Inv Undisturbed (fun _ _ _ _ => True) Guar fun _ _ _ hinv hg => hg.inv hinv

/-- What holds while `t` has the lock. -/
def Held (t : P) (φ : View → Prop) (s : State P) : Prop := s.lock = some t ∧ φ (s.view t)

/-- What a thread knows of its own call, with or without the lock. -/
def Mine (t : P) (ψ : Turn → Prop) (s : State P) : Prop := ψ (s.turn t)

theorem held_stable (φ : View → Prop) : (logic P).Stable t (Held t φ) := by
  refine stable_of_guarantee (fun _ _ => rfl) fun u s s' hu _ hg hs => ?_
  have hkept := hg.held t (Ne.symm hu) hs.1
  refine ⟨hkept.1, ?_⟩
  rw [hkept.2]
  exact hs.2

theorem mine_stable (ψ : Turn → Prop) : (logic P).Stable t (Mine t ψ) := by
  refine stable_of_guarantee (fun _ _ => rfl) fun u s s' hu _ hg hs => ?_
  show ψ (s'.turn t)
  rw [hg.turn t (Ne.symm hu)]
  exact hs

/-! ## The operations -/

/-- An operation of the thread that has the lock. -/
theorem held_act {β : Type} {φ : View → Prop} {o : Op P β} {Q : β → State P → Prop}
    (hstep : ∀ s i b s', Held t φ s → Inv s → Undisturbed β t o s →
      exec t i s o = some (b, s') →
      Inv s' ∧ (∀ u, u ≠ t → s'.turn u = s.turn u) ∧ Q b s') :
    (logic P).Triple t (Held t φ) (.perform o) Q := by
  refine Triple.act (fun _ _ => rfl) (held_stable φ) (fun _ _ _ _ => trivial)
    fun s i b s' hs hinv ha hx => ?_
  obtain ⟨hinv', hturn, hQ⟩ := hstep s i b s' hs hinv ha hx
  refine ⟨⟨fun _ => hinv', fun u hu hlock => ?_, hturn⟩, hQ⟩
  rw [hs.1] at hlock
  exact absurd (Option.some.inj hlock).symm hu

/-- An operation of the thread that has the lock and keeps it. -/
theorem keep_act {β : Type} {φ : View → Prop} {o : Op P β} {Q : β → View → Prop}
    (hstep : ∀ s i b s', φ (s.view t) → Tracks s.cons (text s.history) → Undisturbed β t o s →
      exec t i s o = some (b, s') →
      s'.lock = s.lock ∧ s'.ended = s.ended ∧ (∀ u, u ≠ t → s'.turn u = s.turn u) ∧
        Tracks s'.cons (text s'.history) ∧ Q b (s'.view t)) :
    (logic P).Triple t (Held t φ) (.perform o) fun b => Held t (Q b) := by
  refine held_act fun s i b s' hs hinv ha hx => ?_
  obtain ⟨hlock, hended, hturn, htracks, hQ⟩ := hstep s i b s' hs.2 hinv.tracks ha hx
  have hheld : s'.lock = some t := hlock.trans hs.1
  refine ⟨⟨htracks, fun hfree => ?_, ?_⟩, hturn, hheld, hQ⟩
  · simp [hheld] at hfree
  · rw [hended]
    exact hinv.ended

theorem acquire_rule (ψ : Turn → Prop) :
    (logic P).Triple t (Mine t ψ) acquire fun _ => Held t fun v => ψ v.turn ∧ v.Even := by
  refine Triple.act (fun _ _ => rfl) (mine_stable ψ) (fun _ _ _ _ => trivial)
    fun s i b s' hs hinv _ hx => ?_
  have hx : exec t i s .acquire = some (b, s') := hx
  simp only [exec, Option.ite_none_right_eq_some, Option.some.injEq, Prod.mk.injEq] at hx
  obtain ⟨hfree, -, rfl⟩ := hx
  refine ⟨⟨fun _ => ⟨hinv.tracks, by simp, hinv.ended⟩, fun u _ hu => ?_, fun _ _ => rfl⟩,
    rfl, hs, hinv.even hfree⟩
  simp [hfree] at hu

theorem release_rule (φ : View → Prop) (heven : ∀ v, φ v → v.Even) :
    (logic P).Triple t (Held t φ) release fun _ _ => True := by
  refine held_act fun s i b s' hs hinv _ hx => ?_
  simp only [exec, Option.some.injEq, Prod.mk.injEq] at hx
  obtain ⟨-, rfl⟩ := hx
  exact ⟨⟨hinv.tracks, fun _ => heven _ hs.2, hinv.ended⟩, fun _ _ => rfl, trivial⟩

/-- A call returns. -/
theorem finish_rule (r : I32) :
    (logic P).Triple t
      (Held t fun v => v.Even ∧ Ended.Right ⟨v.turn, r, nextChar v.cons⟩)
      (.perform (.finish r)) fun _ _ => True := by
  refine held_act fun s i b s' hs hinv _ hx => ?_
  simp only [exec, Option.some.injEq, Prod.mk.injEq] at hx
  obtain ⟨-, rfl⟩ := hx
  refine ⟨⟨hinv.tracks, fun _ => hs.2.1, fun d hd => ?_⟩, fun _ _ => rfl, trivial⟩
  rcases List.mem_append.1 hd with hd | hd
  · exact hinv.ended d hd
  · obtain rfl := List.mem_singleton.1 hd
    exact hs.2.2

theorem awake_rule (ψ : Turn → Prop) :
    (logic P).Triple t (Mine t ψ) (.perform .awake) fun _ => Mine t ψ := by
  refine Triple.act (fun _ _ => rfl) (mine_stable ψ) (fun _ _ _ _ => trivial)
    fun s i b s' hs hinv _ hx => ?_
  have hx : exec t i s .awake = some (b, s') := hx
  simp only [exec, Option.ite_none_right_eq_some, Option.some.injEq, Prod.mk.injEq] at hx
  obtain ⟨-, -, rfl⟩ := hx
  exact ⟨⟨fun h => h, fun _ _ h => ⟨h, rfl⟩, fun _ _ => rfl⟩, hs⟩

/-- `sleep` gives the lock up and takes it again. -/
theorem sleep_rule (ψ : Turn → Prop) :
    (logic P).Triple t (Held t fun v => ψ v.turn ∧ v.Even) sleep fun _ =>
      Held t fun v => ψ v.turn ∧ v.Even := by
  refine Triple.bind (held_act (Q := fun _ => Mine t ψ) fun s i b s' hs hinv _ hx => ?_) fun _ =>
    (awake_rule ψ).bind fun _ => acquire_rule ψ
  simp only [exec, Option.some.injEq, Prod.mk.injEq] at hx
  obtain ⟨-, rfl⟩ := hx
  exact ⟨⟨hinv.tracks, fun _ => hs.2.2, hinv.ended⟩, fun _ _ => rfl, hs.2.1⟩

theorem wakeup_rule (φ : View → Prop) :
    (logic P).Triple t (Held t φ) wakeup fun _ => Held t φ := by
  refine keep_act fun s i b s' hs htracks _ hx => ?_
  simp only [exec, Option.some.injEq, Prod.mk.injEq] at hx
  obtain ⟨-, rfl⟩ := hx
  exact ⟨rfl, rfl, fun _ _ => rfl, htracks, hs⟩

theorem read_rule {β : Type} (φ : View → Prop) (f : Cons → β) :
    (logic P).Triple t (Held t φ) (read f) fun b => Held t fun v => φ v ∧ b = f v.cons := by
  refine keep_act fun s i b s' hs htracks _ hx => ?_
  simp only [exec, Option.some.injEq, Prod.mk.injEq] at hx
  obtain ⟨rfl, rfl⟩ := hx
  exact ⟨rfl, rfl, fun _ _ => rfl, htracks, hs, rfl⟩

theorem killed_rule (φ : View → Prop) :
    (logic P).Triple t (Held t φ) (.perform .killed) fun b => Held t fun v => b = false ∧ φ v := by
  refine keep_act fun s i b s' hs htracks ha hx => ?_
  simp only [exec, Option.some.injEq, Prod.mk.injEq] at hx
  obtain ⟨rfl, rfl⟩ := hx
  exact ⟨rfl, rfl, fun _ _ => rfl, htracks, ha, hs⟩

/-- A character is typed, and whoever has taken some has got them. -/
theorem intr_rule (c : Byte) :
    (logic P).Triple t (Held t View.Even) (.perform (.intr c)) fun _ => Held t View.Even := by
  refine keep_act fun s i b s' hs htracks _ hx => ?_
  simp only [exec, Option.some.injEq, Prod.mk.injEq] at hx
  obtain ⟨-, rfl⟩ := hx
  have hintr := htracks.intr c
  refine ⟨rfl, rfl, fun _ _ => rfl, ?_, ?_⟩
  · rw [text_concat]
    exact hintr
  · show s.delivered = (text (s.history ++ [.typed c])).delivered
    rw [text_concat]
    exact hs.trans (Editor.delivered_type htracks.taken c).symm

/-- The view after `cons.r++`. -/
def View.pop (v : View) : View :=
  ⟨{ v.cons with r := v.cons.r + 1 }, v.ed.take, v.delivered,
    { v.turn with taken := v.turn.taken ++ [v.cons.at v.cons.r] }⟩

omit [DecidableEq P] in
theorem even_pop {s : State P} (htracks : Tracks s.cons (text s.history))
    (hne : s.cons.r ≠ s.cons.w) (heven : (s.view t).Even) :
    (text s.history).take.delivered =
      s.delivered ++ [s.cons.at s.cons.r].filter (· ≠ ctrl 'D') := by
  have heq : s.delivered = (text s.history).delivered := heven
  rw [Editor.delivered_take (htracks.pop hne).2, heq]

/-- A character comes out of the ring. -/
theorem pop_rule (φ : View → Prop) (hne : ∀ v, φ v → v.cons.r ≠ v.cons.w)
    (heven : ∀ v, φ v → v.Even) :
    (logic P).Triple t (Held t φ) (.perform .pop) fun c => Held t fun v =>
      ∃ v₀, φ v₀ ∧ Tracks v₀.cons v₀.ed ∧ v₀.cons.at v₀.cons.r = c ∧ v = v₀.pop ∧
        v.ed.delivered = v.delivered ++ [c].filter (· ≠ ctrl 'D') := by
  refine keep_act fun s i b s' hs htracks _ hx => ?_
  simp only [exec, Option.some.injEq, Prod.mk.injEq] at hx
  obtain ⟨rfl, rfl⟩ := hx
  have hpop := htracks.pop (hne _ hs)
  have htake := even_pop htracks (hne _ hs) (heven _ hs)
  refine ⟨rfl, rfl, fun u hu => Function.update_of_ne hu .., ?_, s.view t, hs, htracks, rfl, ?_, ?_⟩
  · rw [text_concat]
    exact hpop.1
  · simp only [State.view, View.pop, text_concat, Function.update_self]
    rfl
  · simp only [State.view, text_concat]
    exact htake

/-- The character goes back, and all is as before. -/
theorem unread_rule (φ : View → Prop) :
    (logic P).Triple t
      (Held t fun v => ∃ v₀, φ v₀ ∧ Tracks v₀.cons v₀.ed ∧ v = v₀.pop)
      (.perform .unread) fun _ => Held t φ := by
  refine keep_act fun s i b s' hs _ _ hx => ?_
  simp only [exec, Option.some.injEq, Prod.mk.injEq] at hx
  obtain ⟨-, rfl⟩ := hx
  obtain ⟨v₀, hφ, htracks, hv⟩ := hs
  have hcons : s.cons = v₀.pop.cons := congrArg View.cons hv
  have hed : text s.history = v₀.ed.take := congrArg View.ed hv
  have hdelivered : s.delivered = v₀.delivered := congrArg View.delivered hv
  have hturn : s.turn t = v₀.pop.turn := congrArg View.turn hv
  have hr : ({ s.cons with r := s.cons.r - 1 } : Cons) = v₀.cons := by
    rw [hcons]
    simp [View.pop]
  have hback : (text s.history).step .back = v₀.ed := by
    rw [hed]
    rfl
  have htaken : ({ s.turn t with taken := (s.turn t).taken.dropLast } : Turn) = v₀.turn := by
    rw [hturn]
    simp [View.pop]
  refine ⟨rfl, rfl, fun u hu => Function.update_of_ne hu .., ?_, ?_⟩
  · rw [text_concat, hback, hr]
    exact htracks
  · simp only [State.view, text_concat, hback, hr, Function.update_self, htaken, hdelivered]
    exact hφ

/-- The user gets a character. -/
theorem copyout_rule (φ : View → Prop) (dst : U64) (c : Byte) :
    (logic P).Triple t (Held t φ) (.perform (.copyout dst c)) fun b => Held t fun v =>
      b = some () ∧ ∃ v₀, φ v₀ ∧ v = { v₀ with
        delivered := v₀.delivered ++ [c]
        turn := { v₀.turn with got := v₀.turn.got ++ [c] } } := by
  refine keep_act fun s i b s' hs htracks ha hx => ?_
  have hmapped : s.mapped t dst = true := by simpa [Undisturbed, disturbed] using ha
  simp only [exec, hmapped, if_true, Option.some.injEq, Prod.mk.injEq] at hx
  obtain ⟨rfl, rfl⟩ := hx
  refine ⟨rfl, rfl, fun u hu => Function.update_of_ne hu .., htracks, rfl, s.view t, hs, ?_⟩
  simp [State.view]

theorem kill_rule (q : P) :
    (logic P).Triple t (fun _ => True) (.perform (.kill q)) fun _ _ => True := by
  refine Triple.act (fun _ _ => rfl) (fun _ _ _ _ => trivial) (fun _ _ _ _ => trivial)
    fun s i b s' _ hinv _ hx => ?_
  have hx : exec t i s (.kill q) = some (b, s') := hx
  simp only [exec, Option.some.injEq, Prod.mk.injEq] at hx
  obtain ⟨-, rfl⟩ := hx
  exact ⟨⟨fun h => ⟨h.tracks, h.even, h.ended⟩, fun _ _ h => ⟨h, rfl⟩, fun _ _ => rfl⟩, trivial⟩

theorem next_rule :
    (logic P).Triple t (fun _ => True) (.perform .next) fun call s =>
      ∀ dst n, call = some (.read dst n) → s.turn t = ⟨n, [], []⟩ := by
  refine Triple.act (fun _ _ => rfl) (fun _ _ _ _ => trivial) (fun _ _ _ _ => trivial)
    fun s i b s' _ hinv _ hx => ?_
  have hx : exec t i s .next = some (b, s') := hx
  cases i with
  | none =>
    obtain ⟨rfl, rfl⟩ := Prod.mk.inj (Option.some.inj hx)
    refine ⟨⟨fun h => h, fun _ _ h => ⟨h, rfl⟩, fun _ _ => rfl⟩, fun _ _ h => ?_⟩
    cases h
  | some call =>
    cases call with
    | read dst n =>
      obtain ⟨rfl, rfl⟩ := Prod.mk.inj (Option.some.inj hx)
      refine ⟨⟨fun h => ⟨h.tracks, h.even, h.ended⟩, fun u hu h => ⟨h, ?_⟩, fun u hu => ?_⟩,
        fun dst' n' h => ?_⟩
      · simp [State.view, hu]
      · simp [hu]
      · cases h
        simp
    | _ =>
      obtain ⟨rfl, rfl⟩ := Prod.mk.inj (Option.some.inj hx)
      refine ⟨⟨fun h => h, fun _ _ h => ⟨h, rfl⟩, fun _ _ => rfl⟩, fun _ _ h => ?_⟩
      cases h

/-! ## The calls -/

theorem consoleintr_rule (c : Byte) :
    (logic P).Triple t (fun _ => True) (consoleintr c) fun _ _ => True := by
  have hrelease : (logic P).Triple t (Held t View.Even) release fun _ _ => True :=
    release_rule _ fun _ h => h
  have hacquire := acquire_rule (t := t) fun _ => True
  refine Triple.bind (R := fun _ => Held t View.Even) ?_ fun _ => ?_
  · exact (hacquire.pre fun _ _ => trivial).post fun _ _ h => ⟨h.1, h.2.2⟩
  refine Triple.bind (intr_rule c) fun wake => ?_
  cases wake with
  | true => exact Triple.bind (wakeup_rule _) fun _ => hrelease
  | false => exact hrelease

/-! ## One call of `consoleread` -/

variable {n m : I32}

/-- The call holds the lock and has `m` characters to go. -/
def Reading (t : P) (n m : I32) : State P → Prop :=
  Held t fun v => v.turn.Sofar n m ∧ v.Even

/-- How the loop of `consoleread` ends. -/
def Finished (t : P) (n : I32) : Option I32 → State P → Prop
  | none, _ => False
  | some m, s => Held t (fun v => v.Even ∧ Ended.Right ⟨v.turn, n - m, nextChar v.cons⟩) s

theorem held_ret {β : Type} {φ : View → Prop} {b : β} {Q : β → State P → Prop}
    (h : ∀ s, Held t φ s → Q b s) : (logic P).Triple t (Held t φ) (.ret b) Q := h

theorem wait_rule (dst : U64) :
    (logic P).Triple t (Reading t n m)
      (do
        if ← .perform .killed then
          release
          return .inr none
        else
          sleep
          return .inl (dst, m) : Code P (U64 × I32 ⊕ Option I32))
      (Sum.elim (fun y => Reading t n y.2) (Finished t n)) := by
  refine Triple.bind (killed_rule _) fun killed => ?_
  cases killed with
  | true =>
    intro s hs
    cases hs.2.1
  | false =>
    refine Triple.bind (((sleep_rule (Turn.Sofar n m)).pre fun s hs => ⟨hs.1, hs.2.2⟩)) fun _ => ?_
    exact fun _ hs => hs

/-- What is known when a character `c` has come out of the ring. -/
def Popped (n m : I32) (c : Byte) (v : View) : Prop :=
  ∃ v₀ : View, (v₀.turn.Sofar n m ∧ v₀.Even ∧ v₀.cons.r ≠ v₀.cons.w) ∧ Tracks v₀.cons v₀.ed ∧
    v₀.cons.at v₀.cons.r = c ∧ v = v₀.pop ∧
    v.ed.delivered = v.delivered ++ [c].filter (· ≠ ctrl 'D')

theorem eof_rule :
    (logic P).Triple t (Held t (Popped n m (ctrl 'D')))
      (do
        if m < n then
          .perform .unread
          return .inr (some m)
        else
          return .inr (some m) : Code P (U64 × I32 ⊕ Option I32))
      (Sum.elim (fun y => Reading t n y.2) (Finished t n)) := by
  refine Triple.ite (fun hlt => ?_) fun hlt => ?_
  · -- the character goes back and is the next one
    have hback := unread_rule (t := t) fun v => (v.turn.Sofar n m ∧ v.Even) ∧
      nextChar v.cons = some (ctrl 'D')
    refine Triple.bind (hback.pre fun s hs => ?_) fun _ => held_ret fun s hs => ?_
    · obtain ⟨hlock, v₀, ⟨hsofar, heven, hne⟩, htracks, hc, hv, -⟩ := hs
      refine ⟨hlock, v₀, ⟨⟨hsofar, heven⟩, ?_⟩, htracks, hv⟩
      rw [nextChar, if_neg hne, hc]
    · obtain ⟨hlock, ⟨hsofar, heven⟩, hnext⟩ := hs
      exact ⟨hlock, heven, hsofar.right (.inr ⟨hsofar.lt_iff.1 hlt, hnext⟩)⟩
  · refine held_ret fun s hs => ?_
    obtain ⟨hlock, v₀, ⟨hsofar, -, -⟩, -, hc, hv, hdelivered⟩ := hs
    refine ⟨hlock, ?_, ?_⟩
    · simpa [View.Even] using hdelivered.symm
    · have hturn : (s.view t).turn = ⟨v₀.turn.n, v₀.turn.taken ++ [ctrl 'D'], v₀.turn.got⟩ := by
        rw [hv, ← hc]
        rfl
      rw [hturn]
      exact hsofar.right_eof hlt _

theorem store_rule {c : Byte} (hm : m.toInt > 0) (heof : c ≠ ctrl 'D') (dst : U64) :
    (logic P).Triple t (Held t (Popped n m c))
      (do
        match ← .perform (.copyout dst c) with
        | none => return .inr (some m)
        | some () =>
          if c = 10 then
            return .inr (some (m - 1))
          else
            return .inl (dst + 1, m - 1) : Code P (U64 × I32 ⊕ Option I32))
      (Sum.elim (fun y => Reading t n y.2) (Finished t n)) := by
  refine Triple.bind (copyout_rule _ dst c) fun stored => ?_
  cases stored with
  | none =>
    intro s hs
    cases hs.2.1
  | some u =>
    have hlast : ∀ s, Held t (fun v => some u = some () ∧ ∃ v₁, Popped n m c v₁ ∧ v = { v₁ with
        delivered := v₁.delivered ++ [c]
        turn := { v₁.turn with got := v₁.turn.got ++ [c] } }) s →
        s.lock = some t ∧ (s.view t).Even ∧ ∃ x : Turn, x.Sofar n m ∧
          (s.view t).turn = ⟨x.n, x.taken ++ [c], x.got ++ [c]⟩ := by
      rintro s ⟨hlock, -, v₁, ⟨v₀, ⟨hsofar, -, -⟩, -, hc, rfl, hdelivered⟩, hv⟩
      refine ⟨hlock, ?_, v₀.turn, hsofar, ?_⟩
      · rw [hv]
        have hkeep : [c].filter (· ≠ ctrl 'D') = [c] := by simp [heof]
        rw [hkeep] at hdelivered
        exact hdelivered.symm
      · rw [hv, ← hc]
        rfl
    refine Triple.ite (fun hline => ?_) fun hline => ?_
    · refine held_ret fun s hs => ?_
      obtain ⟨hlock, heven, x, hsofar, hturn⟩ := hlast s hs
      refine ⟨hlock, heven, ?_⟩
      rw [hturn, hline]
      exact hsofar.right_line hm _
    · refine held_ret fun s hs => ?_
      obtain ⟨hlock, heven, x, hsofar, hturn⟩ := hlast s hs
      refine ⟨hlock, ?_, heven⟩
      rw [hturn]
      exact hsofar.next hm heof hline

theorem readTurn_rule (dst : U64) :
    (logic P).Triple t (Reading t n m) (readTurn n dst m)
      (Sum.elim (fun y => Reading t n y.2) (Finished t n)) := by
  refine Triple.ite (fun hm => ?_) fun hm => ?_
  · refine held_ret fun s hs => ?_
    exact ⟨hs.1, hs.2.2, hs.2.1.right_full hm _⟩
  · refine Triple.bind (read_rule _ _) fun empty => ?_
    refine Triple.ite (fun hempty => ?_) fun hempty => ?_
    · exact (wait_rule dst).pre fun s hs => ⟨hs.1, hs.2.1⟩
    · have hpop := pop_rule (t := t) (fun v => v.turn.Sofar n m ∧ v.Even ∧ v.cons.r ≠ v.cons.w)
        (fun _ h => h.2.2) fun _ h => h.2.1
      refine Triple.bind (hpop.pre fun s hs => ?_) fun c => ?_
      · obtain ⟨hlock, ⟨hsofar, heven⟩, htest⟩ := hs
        refine ⟨hlock, hsofar, heven, fun heq => hempty ?_⟩
        rw [htest, heq]
        simp
      · refine Triple.ite (fun hc => ?_) fun hc => ?_
        · obtain rfl : c = ctrl 'D' := (setWidth_eq_iff c 4 (by decide)).1 hc
          exact eof_rule
        · have heof : c ≠ ctrl 'D' := fun heq => hc ((setWidth_eq_iff c 4 (by decide)).2 heq)
          exact store_rule (not_not.1 hm) heof dst

theorem consoleread_rule (dst : U64) :
    (logic P).Triple t (Mine t (· = ⟨n, [], []⟩)) (consoleread dst n) fun _ _ => True := by
  refine Triple.bind (R := fun _ => Reading t n n) ?_ fun _ => ?_
  · have hstart : (logic P).Triple t (Mine t (Turn.Sofar n n)) acquire fun _ => Reading t n n :=
      acquire_rule (Turn.Sofar n n)
    refine hstart.pre fun s hs => ?_
    have hturn : s.turn t = ⟨n, [], []⟩ := hs
    show Turn.Sofar n n (s.turn t)
    rw [hturn]
    exact Turn.Sofar.start n
  · refine Triple.bind (R := Finished t n) ?_ fun r => ?_
    · have hloop := Triple.loop (L := logic P) (t := t) (b := (dst, n)) (Q := Finished t n)
        (fun x : U64 × I32 => Reading t n x.2) (fun _ => held_stable _) fun x => readTurn_rule x.1
      exact hloop
    · cases r with
      | none => exact fun _ hs => hs.elim
      | some m => exact Triple.bind (finish_rule (n - m)) fun _ => fun _ _ => trivial

theorem main_rule : (logic P).Triple t (fun _ => True) main fun _ _ => False := by
  refine Triple.forever (fun _ _ _ _ => trivial) ?_
  refine Triple.bind next_rule fun call => ?_
  rcases call with _ | (c | ⟨dst, n⟩ | q)
  · exact fun _ _ => trivial
  · exact (consoleintr_rule c).pre fun _ _ => trivial
  · refine Triple.bind ((consoleread_rule dst).pre fun s hs => ?_) fun _ => fun _ _ => trivial
    exact hs dst n rfl
  · exact (kill_rule q).pre fun _ _ => trivial

omit [DecidableEq P] in
theorem inv_new (buf : Fin INPUT_BUF_SIZE → Byte) (i : I32) (mapped : P → U64 → Bool) :
    Inv (State.new buf i mapped) where
  tracks := tracks_start buf i
  even _ := rfl
  ended _ h := by cases h

/-- The console through any run of its handler and its readers. -/
theorem line_discipline (buf : Fin INPUT_BUF_SIZE → Byte) (i : I32) (mapped : P → U64 → Bool)
    (g : Config (Op P) (State P) P)
    (hg : (machine P).Reach Undisturbed (start buf i mapped) g) :
    ((g.mem.cons.w - g.mem.cons.r).toNat ≤ (g.mem.cons.e - g.mem.cons.r).toNat ∧
        (g.mem.cons.e - g.mem.cons.r).toNat ≤ INPUT_BUF_SIZE) ∧
      Tracks g.mem.cons (text g.mem.history) ∧
      (g.mem.lock = none → g.mem.delivered = (text g.mem.history).delivered) ∧
      ∀ d ∈ g.mem.ended, d.Right := by
  obtain ⟨hinv, -⟩ := Logic.inv_of_reach (fun ha => ha) (fun _ => rfl) (inv_new buf i mapped)
    (fun _ => wp_mono (fun _ _ h => h.elim) (main_rule _ trivial)) hg
  exact ⟨hinv.tracks.indices, hinv.tracks, hinv.even, hinv.ended⟩

/-- Somebody types a letter and an end of file, and somebody else reads twice. -/
def twoReads : List (Bool × Input Bool) :=
  let types (c : Byte) (k : Nat) : List (Bool × Input Bool) :=
    (false, none) :: (false, some (.intr c)) :: List.replicate k (false, none)
  let reads (k : Nat) : List (Bool × Input Bool) :=
    (true, none) :: (true, some (.read 0 5)) :: List.replicate k (true, none)
  types 97 3 ++ types 4 4 ++ reads 10 ++ reads 5

theorem line_discipline_twoReads : ∃ g : Config (Op Bool) (State Bool) Bool,
    (machine Bool).Reach Undisturbed (start (fun _ => 0) 0 fun _ _ => true) g ∧
      g.mem.delivered = [97] ∧ (g.mem.ended.map fun d => d.r) = [1, 0] ∧
      g.mem.delivered = (text g.mem.history).delivered := by
  have hview : ((machine Bool).run Undisturbed twoReads
      (start (fun _ => 0) 0 fun _ _ => true)).map
        (fun g => (g.mem.lock, g.mem.delivered, g.mem.ended.map fun d => d.r)) =
      some (none, [97], [1, 0]) := by decide
  obtain ⟨g, hrun, hg⟩ := Option.map_eq_some_iff.1 hview
  have hreach := Machine.reach_of_run _ _ .start hrun
  have hlock : g.mem.lock = none := congrArg Prod.fst hg
  have hrest := congrArg Prod.snd hg
  obtain ⟨-, -, heven, -⟩ := line_discipline _ _ _ g hreach
  exact ⟨g, hreach, congrArg Prod.fst hrest, congrArg Prod.snd hrest, heven hlock⟩

end Xv6.Console
