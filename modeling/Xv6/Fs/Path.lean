import Xv6.Fs.Dir

/-!
# Paths

`skipelem` takes a path apart at its slashes, and `namex` follows the names
from one directory to the next.
-/

namespace Xv6.Fs

open Run
open Function (update)

variable {sb : Superblock} {s s' : State} {E : String → Prop}

/-! ## The names of a path -/

/-- The maximal parts of a path without slashes. -/
def components (path : List Byte) : List (List Byte) :=
  (path.splitOn SLASH).filter (· ≠ [])

/-- A name of a path as it is stored in a directory. -/
def stored (c : List Byte) : List Byte := key fun i => c.getD i 0

/-- `name` begins with the first `DIRSIZ` bytes of `c`, and a shorter name ends
in a NUL. -/
def IsName (name : Chars) (c : List Byte) : Prop :=
  (∀ i, i < c.length → i < DIRSIZ → name i = c.getD i 0) ∧ (c.length < DIRSIZ → name c.length = 0)

theorem strncpy_congr {t u : Chars} {n : Nat} (h : ∀ i < n, (∀ j < i, u j ≠ 0) → t i = u i) :
    strncpy t n = strncpy u n := by
  induction n generalizing t u with
  | zero => rfl
  | succ n ih =>
    have hhead : t 0 = u 0 := h 0 (by omega) fun j hj => absurd hj (Nat.not_lt_zero j)
    rw [strncpy, strncpy, hhead]
    split_ifs with hu
    · rfl
    · rw [ih fun i hi hne => h (i + 1) (by omega) fun j hj => ?_]
      cases j with
      | zero => exact hu
      | succ j => exact hne j (by omega)

/-- A name in a buffer is looked up as the name that it was cut from. -/
theorem IsName.key_eq {name : Chars} {c : List Byte} (h : IsName name c) : key name = stored c := by
  show strncpy name DIRSIZ = strncpy (fun i => c.getD i 0) DIRSIZ
  refine strncpy_congr fun i hi hne => ?_
  by_cases hlt : i < c.length
  · exact h.1 i hlt hi
  · have hend : ∀ j, c.length ≤ j → c.getD j 0 = 0 := fun j hj => by simp [hj]
    by_cases heq : i = c.length
    · rw [heq, h.2 (by omega), hend _ (Nat.le_refl _)]
    · exact absurd (hend c.length (Nat.le_refl _)) (hne _ (by omega))

theorem components_nil : components [] = [] := rfl

theorem components_slash (path : List Byte) : components (SLASH :: path) = components path := by
  simp [components, List.splitOn_cons_eq_if_modifyHead]

theorem components_skipSlashes (path : List Byte) :
    components (skipSlashes path) = components path := by
  induction path with
  | nil => rfl
  | cons c path ih =>
    rw [skipSlashes]
    split_ifs with hc
    · rw [ih, hc, components_slash]
    · rfl

theorem skipSlashes_head (path : List Byte) : (skipSlashes path).head? ≠ some SLASH := by
  induction path with
  | nil => simp [skipSlashes]
  | cons c path ih =>
    rw [skipSlashes]
    split_ifs with hc
    · exact ih
    · simpa using hc

theorem skipSlashes_suffix (path : List Byte) : skipSlashes path <:+ path := by
  induction path with
  | nil => exact List.suffix_refl _
  | cons c path ih =>
    rw [skipSlashes]
    split_ifs
    · exact ih.trans (List.suffix_cons c path)
    · exact List.suffix_refl _

/-- `skipName` goes over a part without slashes. -/
theorem skipName_spec {s : List Byte} (hs : (0 : Byte) ∉ s) :
    ∃ c, s = c ++ skipName s ∧ SLASH ∉ c ∧
      (skipName s = [] ∨ ∃ rest, skipName s = SLASH :: rest) := by
  induction s with
  | nil => exact ⟨[], rfl, List.not_mem_nil, .inl rfl⟩
  | cons a s ih =>
    simp only [List.mem_cons, not_or] at hs
    obtain ⟨ha, hs⟩ := hs
    rw [skipName]
    by_cases hslash : a = SLASH
    · rw [if_neg (by simp [hslash])]
      exact ⟨[], rfl, List.not_mem_nil, .inr ⟨s, by rw [hslash]⟩⟩
    · rw [if_pos ⟨hslash, Ne.symm ha⟩]
      obtain ⟨c, heq, hc, hrest⟩ := ih hs
      refine ⟨a :: c, ?_, ?_, hrest⟩
      · rw [List.cons_append, ← heq]
      · simp only [List.mem_cons, not_or]
        exact ⟨Ne.symm hslash, hc⟩

theorem components_append {c rest : List Byte} (hc : SLASH ∉ c) (hne : c ≠ [])
    (hrest : rest = [] ∨ ∃ r, rest = SLASH :: r) : components (c ++ rest) = c :: components rest := by
  rcases hrest with rfl | ⟨r, rfl⟩
  · rw [List.append_nil, components, List.splitOn_eq_singleton hc]
    simp [hne, components_nil]
  · rw [components_slash, components, List.splitOn_append_cons_self_of_not_mem hc]
    simp [hne, components]

/-- What `skipelem` answers. -/
inductive Skipped (path : List Byte) : Option (List Byte × Chars) → Prop
  | done (h : components path = []) : Skipped path none
  | name {c rest : List Byte} {name : Chars} (h : components path = c :: components rest)
      (hne : c ≠ []) (hname : IsName name c) (hsub : rest <:+ path)
      (hlt : rest.length < path.length) (hlast : rest.headD 0 = 0 ↔ components rest = []) :
      Skipped path (some (rest, name))

theorem setName_isName (name : Chars) (c rest : List Byte) :
    IsName (setName name (c ++ rest) c.length) c := by
  have hget : ∀ i < c.length, (c ++ rest).getD i 0 = c.getD i 0 := fun i hi => by
    simp [List.getD_eq_getElem?_getD, List.getElem?_append_left hi]
  constructor
  · intro i hi hlt
    unfold setName
    split_ifs
    · exact hget i hi
    · exact hget i hi
  · intro hlt
    unfold setName
    rw [if_neg (by omega), if_neg (by omega), if_pos rfl]

theorem headD_eq_zero {path : List Byte} (h : (0 : Byte) ∉ path) :
    path.headD 0 = 0 ↔ path = [] := by
  cases path with
  | nil => simp
  | cons c path =>
    have hc : ¬c = 0#8 := fun hc => h (hc ▸ List.mem_cons_self)
    simpa using hc

theorem components_of_skipped {path : List Byte} (h : path.head? ≠ some SLASH)
    (hz : (0 : Byte) ∉ path) : path = [] ↔ components path = [] := by
  refine ⟨fun hnil => by rw [hnil, components_nil], fun hcomp => ?_⟩
  by_contra hne
  obtain ⟨c, heq, hc, hrest⟩ := skipName_spec hz
  have hcne : c ≠ [] := by
    rintro rfl
    rw [List.nil_append] at heq
    rcases hrest with hnil | ⟨r, hr⟩
    · exact hne (heq.trans hnil)
    · rw [heq, hr] at h
      exact h rfl
  rw [heq, components_append hc hcne hrest] at hcomp
  cases hcomp

theorem skipelem_spec {path : List Byte} (name : Chars) (hz : (0 : Byte) ∉ path) :
    Skipped path (skipelem path name) := by
  have hsuffix := skipSlashes_suffix path
  have hz' : (0 : Byte) ∉ skipSlashes path := fun h => hz (hsuffix.subset h)
  have hcomp := components_skipSlashes path
  unfold skipelem
  by_cases hend : (skipSlashes path).headD 0 = 0
  · rw [if_pos hend]
    rw [headD_eq_zero hz'] at hend
    refine .done ?_
    rw [← hcomp, hend, components_nil]
  · rw [if_neg hend]
    rw [headD_eq_zero hz'] at hend
    obtain ⟨c, heq, hc, hrest⟩ := skipName_spec hz'
    have hcne : c ≠ [] := by
      rintro rfl
      rw [List.nil_append] at heq
      rcases hrest with hnil | ⟨r, hr⟩
      · exact hend (heq.trans hnil)
      · exact skipSlashes_head path (by rw [heq, hr, List.head?_cons])
    have hlen : (skipSlashes path).length - (skipName (skipSlashes path)).length = c.length := by
      have hcongr := congrArg List.length heq
      rw [List.length_append] at hcongr
      omega
    have hrest' := skipSlashes_suffix (skipName (skipSlashes path))
    have hz'' : (0 : Byte) ∉ skipSlashes (skipName (skipSlashes path)) := fun h =>
      hz' (heq ▸ List.mem_append_right c (hrest'.subset h))
    refine .name (c := c) ?_ hcne ?_ ?_ ?_ ?_
    · rw [components_skipSlashes, ← components_append hc hcne hrest, ← heq, hcomp]
    · rw [hlen, show setName name (skipSlashes path) = setName name (c ++ skipName (skipSlashes path))
        from congrArg _ heq]
      exact setName_isName name c _
    · refine hrest'.trans ((List.IsSuffix.trans ?_ hsuffix))
      exact ⟨c, heq.symm⟩
    · have hle := hrest'.length_le
      have hle' := hsuffix.length_le
      have hcongr := congrArg List.length heq
      rw [List.length_append] at hcongr
      have hpos := List.length_pos_iff.2 hcne
      omega
    · rw [headD_eq_zero hz'']
      exact components_of_skipped (skipSlashes_head _) hz''

/-- The names that iterating `skipelem` yields. -/
def elements : (fuel : Nat) → (path : List Byte) → (name : Chars) → List Chars
  | 0, _, _ => []
  | fuel + 1, path, name =>
    match skipelem path name with
    | none => []
    | some (path, name) => name :: elements fuel path name

theorem elements_spec {fuel : Nat} {path : List Byte} (name : Chars) (hz : (0 : Byte) ∉ path)
    (hfuel : path.length ≤ fuel) :
    List.Forall₂ IsName (elements fuel path name) (components path) := by
  induction fuel generalizing path name with
  | zero =>
    rw [List.length_eq_zero_iff.1 (Nat.le_zero.1 hfuel)]
    exact .nil
  | succ fuel ih =>
    have hskip := skipelem_spec name hz
    unfold elements
    cases hs : skipelem path name with
    | none =>
      rw [hs] at hskip
      cases hskip with
      | done h => rw [h]; exact .nil
    | some r =>
      rw [hs] at hskip
      cases hskip with
      | name h _ hname hsub hlt _ =>
        rw [h]
        exact .cons hname (ih _ (fun h => hz (hsub.subset h)) (by omega))

/-! ## Directory trees -/

/-- An inode in use, which is not freed when its last new reference goes. -/
def Kept (s : State) (i : Nat) : Prop :=
  (s.cur i).type ≠ 0 ∧ ((s.cur i).nlink ≠ 0 ∨ i ∈ s.refs)

/-- A directory has blocks for its size and names that differ, and what it
names is in use. -/
structure Tree (s : State) : Prop where
  dir : ∀ {i}, (s.cur i).type = T_DIR → Allocated s i ∧ DIRENT ∣ (s.cur i).size ∧
    Slots.Unique (s.entries i) (s.count i)
  named : ∀ {i k n}, (s.cur i).type = T_DIR → s.dir i k = some n → Kept s n
  root : Kept s ROOTINO

/-- Where the names lead from `i`; `none` if one is missing or a non-directory
is traversed. -/
def follow (s : State) : (i : Nat) → List (List Byte) → Option Nat
  | i, [] => some i
  | i, c :: cs =>
    if (s.cur i).type = T_DIR then (s.dir i (stored c)).bind fun n => follow s n cs else none

/-- The directory for the last name. -/
def parent (s : State) (i : Nat) (cs : List (List Byte)) : Option Nat :=
  if cs = [] then none else (follow s i cs.dropLast).filter fun d => (s.cur d).type = T_DIR

/-- Where a path starts. -/
def start (cwd : Nat) (path : List Byte) : Nat := if path.headD 0 = SLASH then ROOTINO else cwd

/-- There is room for every inode on the way. -/
def RoomAlong (s : State) : (i : Nat) → List (List Byte) → Prop
  | _, [] => True
  | i, c :: cs => (s.cur i).type = T_DIR → ∀ n, s.dir i (stored c) = some n →
    Room (i :: s.refs) n ∧ RoomAlong s n cs

/-- What `namex` looks for, and the names that it looks up. -/
def goal (s : State) (nameiparent : Bool) (i : Nat) (cs : List (List Byte)) : Option Nat :=
  if nameiparent then parent s i cs else follow s i cs

def lookups (nameiparent : Bool) (cs : List (List Byte)) : List (List Byte) :=
  if nameiparent then cs.dropLast else cs

theorem lookups_cons {nameiparent : Bool} {c : List Byte} {cs : List (List Byte)}
    (h : nameiparent = true → cs ≠ []) :
    lookups nameiparent (c :: cs) = c :: lookups nameiparent cs := by
  unfold lookups
  split_ifs with hp
  · exact List.dropLast_cons_of_ne_nil (h hp)
  · rfl

theorem goal_cons {nameiparent : Bool} {i : Nat} {c : List Byte} {cs : List (List Byte)}
    (h : nameiparent = true → cs ≠ []) : goal s nameiparent i (c :: cs) =
      if (s.cur i).type = T_DIR then
        (s.dir i (stored c)).bind fun n => goal s nameiparent n cs
      else none := by
  unfold goal
  split_ifs with hp hdir hdir
  · simp only [parent, h hp, if_false, List.dropLast_cons_of_ne_nil (h hp), follow, hdir, if_true,
      reduceCtorEq]
    cases s.dir i (stored c) <;> rfl
  · simp only [parent, if_false, List.dropLast_cons_of_ne_nil (h hp), follow, hdir, reduceCtorEq]
    rfl
  · rw [follow, if_pos hdir]
  · rw [follow, if_neg hdir]

/-! ## `namex` -/

/-- The files and the inodes on disk are the same, nothing is logged, and the
references are `refs`. -/
structure Visited (s : State) (refs : List Nat) (s' : State) : Prop where
  files : SameFiles s s'
  dinode : s'.dinode = s.dinode
  refs_eq : s'.refs = refs
  logged_eq : s'.logged = s.logged

theorem ilock_spec {refs : List Nat} {ip : Nat} (hv : Visited s refs s') (href : ip ∈ refs)
    (htype : (s.cur ip).type ≠ 0) :
    Wp (ilock ip) (fun _ s'' => Visited s refs s'' ∧ Locked s'' ip) E s' := by
  have href' : ip ∈ s'.refs := hv.refs_eq ▸ href
  have hcount : ¬ s'.refs.count ip < 1 := by
    have hpos := List.count_pos_iff.2 href'
    omega
  rw [← hv.files.cur] at htype
  unfold ilock
  rw [wp_bind, wp_get, if_neg hcount]
  refine Wp.ite (fun hvalid => ?_) fun hvalid => ?_
  · refine ⟨hv, href', hvalid, ?_⟩
    rwa [State.cur, if_pos ⟨href', hvalid⟩] at htype
  · rw [State.cur, if_neg fun h => hvalid h.2] at htype
    rw [wp_bind, wp_modify, if_neg htype]
    refine ⟨⟨⟨?_, hv.files.data, hv.files.bitmap⟩, hv.dinode, hv.refs_eq, hv.logged_eq⟩, href',
      ?_, ?_⟩
    · rw [← hv.files.cur]
      funext j
      unfold State.cur
      by_cases hj : j = ip
      · subst hj
        simp [href', hvalid]
      · simp [hj]
    · exact Function.update_self ..
    · show (update s'.copy ip (s'.dinode ip) ip).type ≠ 0
      rwa [Function.update_self]

theorem iput_spec {refs : List Nat} {ip : Nat} (hv : Visited s refs s') (href : ip ∈ refs)
    (hk : Kept s ip) (hsub : s.refs ⊆ refs.erase ip) :
    Wp (iput sb ip) (fun _ s'' => Visited s (refs.erase ip) s'') E s' := by
  have hkeep : ¬ (s'.refs.count ip = 1 ∧ s'.valid ip = true ∧ (s'.copy ip).nlink = 0) := by
    rintro ⟨hone, hvalid, hnlink⟩
    rw [hv.refs_eq] at hone
    have hcur : s'.cur ip = s'.copy ip := if_pos ⟨hv.refs_eq ▸ href, hvalid⟩
    rw [← hcur, hv.files.cur] at hnlink
    have hin := hsub (hk.2.resolve_left fun h => h hnlink)
    have hpos := List.count_pos_iff.2 hin
    rw [List.count_erase_self, hone] at hpos
    omega
  unfold iput
  rw [wp_bind, wp_get, if_neg hkeep]
  refine ⟨⟨?_, hv.files.data, hv.files.bitmap⟩, hv.dinode, congrArg (List.erase · ip) hv.refs_eq,
    hv.logged_eq⟩
  funext j
  show (if j ∈ s'.refs.erase ip ∧ s'.valid j = true then s'.copy j else s'.dinode j) = s.cur j
  by_cases hj : j ∈ s'.refs.erase ip
  · rw [← hv.files.cur, State.cur]
    simp [hj, List.mem_of_mem_erase hj]
  · have hout : j ∉ s.refs := fun h => hj (hv.refs_eq ▸ hsub h)
    rw [if_neg fun h => hj h.1, hv.dinode, State.cur, if_neg fun h => hout h.1]

theorem iunlockput_spec {refs : List Nat} {ip : Nat} (hv : Visited s refs s') (href : ip ∈ refs)
    (hk : Kept s ip) (hsub : s.refs ⊆ refs.erase ip) :
    Wp (iunlockput sb ip) (fun _ s'' => Visited s (refs.erase ip) s'') E s' := by
  have hcount : ¬ s'.refs.count ip < 1 := by
    have hpos := List.count_pos_iff.2 href
    rw [hv.refs_eq]
    omega
  unfold iunlockput iunlock
  rw [wp_bind, wp_bind, wp_get, if_neg hcount, wp_pure]
  exact iput_spec hv href hk hsub

theorem Visited.got {refs : List Nat} (hv : Visited s refs s') (n : Nat) :
    Visited s (n :: refs) (s'.got n) where
  files := ⟨(sameFiles_got n).cur.trans hv.files.cur, hv.files.data, hv.files.bitmap⟩
  dinode := hv.dinode
  refs_eq := congrArg (n :: ·) hv.refs_eq
  logged_eq := hv.logged_eq

/-- What `namex` answers. -/
structure Walked (s : State) (nameiparent : Bool) (i : Nat) (cs : List (List Byte))
    (r : Option (Nat × Chars)) (s' : State) : Prop where
  inode : r.map (·.1) = goal s nameiparent i cs
  name : nameiparent = true → ∀ d name, r = some (d, name) → ∃ c, cs.getLast? = some c ∧
    IsName name c
  visited : Visited s ((r.map (·.1)).toList ++ s.refs) s'

/-- The names in a tree stay names of inodes in use. -/
theorem Tree.visited {refs : List Nat} (ht : Tree s) (hv : Visited s refs s')
    (hsub : s.refs ⊆ refs) : Tree s' := by
  have hkept : ∀ {i}, Kept s i → Kept s' i := by
    intro i hk
    unfold Kept
    rw [hv.files.cur, hv.refs_eq]
    exact ⟨hk.1, hk.2.imp_right fun hi => hsub hi⟩
  refine ⟨fun htype => ?_, fun htype hn => ?_, hkept ht.root⟩
  · rw [hv.files.cur] at htype ⊢
    rw [hv.files.entries, hv.files.count]
    exact ⟨hv.files.allocated (ht.dir htype).1, (ht.dir htype).2⟩
  · rw [hv.files.cur] at htype
    rw [hv.files.dir] at hn
    exact hkept (ht.named htype hn)

theorem Tree.directory {refs : List Nat} {i : Nat} (ht : Tree s) (hv : Visited s refs s')
    (hl : Locked s' i) (htype : (s.cur i).type = T_DIR) : Directory s' i where
  locked := hl
  type := by rwa [← hl.cur_eq, hv.files.cur]
  allocated := hv.files.allocated (ht.dir htype).1
  aligned := by
    rw [hv.files.cur]
    exact (ht.dir htype).2.1
  unique := by
    rw [hv.files.entries, hv.files.count]
    exact (ht.dir htype).2.2

theorem parent_single (i : Nat) (c : List Byte) :
    parent s i [c] = if (s.cur i).type = T_DIR then some i else none := by
  rw [parent, if_neg (List.cons_ne_nil c []), List.dropLast_singleton, follow, Option.filter_some]
  simp only [decide_eq_true_eq]

theorem roomAlong_of_not_dir {i : Nat} (h : (s.cur i).type ≠ T_DIR) (cs : List (List Byte)) :
    RoomAlong s i cs := by
  cases cs with
  | nil => trivial
  | cons c cs => exact fun hdir => absurd hdir h

theorem goal_of_not_dir {i : Nat} (h : (s.cur i).type ≠ T_DIR) (nameiparent : Bool) (c : List Byte)
    (cs : List (List Byte)) : goal s nameiparent i (c :: cs) = none := by
  cases nameiparent with
  | true =>
    cases cs with
    | nil => rw [goal, if_pos rfl, parent_single, if_neg h]
    | cons c' cs => rw [goal_cons fun _ => List.cons_ne_nil c' cs, if_neg h]
  | false => rw [goal_cons fun h => (by cases h), if_neg h]

theorem roomFor_iff {refs : List Nat} {name : Chars} {c : List Byte} {i : Nat}
    (hv : Visited s refs s') (hname : IsName name c) :
    RoomFor s' i name ↔ ∀ n, s.dir i (stored c) = some n → Room refs n := by
  unfold RoomFor
  rw [hname.key_eq, hv.files.dir, hv.refs_eq]

theorem namexLoop_spec {nameiparent : Bool} {fuel ip : Nat} {path : List Byte} {name : Chars}
    (ht : Tree s) (hk : Kept s ip) (hv : Visited s (ip :: s.refs) s') (hz : (0 : Byte) ∉ path)
    (hfuel : path.length < fuel) :
    Wp (namexLoop sb nameiparent fuel path name ip)
      (fun r s'' => RoomAlong s ip (lookups nameiparent (components path)) ∧
        Walked s nameiparent ip (components path) r s'')
      (fun _ => ¬ RoomAlong s ip (lookups nameiparent (components path))) s' := by
  induction fuel generalizing path name ip s' with
  | zero => omega
  | succ fuel ih =>
    have hskip := skipelem_spec name hz
    have herase : (ip :: s.refs).erase ip = s.refs := List.erase_cons_head ..
    unfold namexLoop
    cases hs : skipelem path name with
    | none =>
      rw [hs] at hskip
      cases hskip with
      | done hnil =>
        rw [hnil]
        refine Wp.mono (Q := fun r s'' => Walked s nameiparent ip [] r s'') (E := fun _ => False) ?_
          (fun _ _ h => ⟨by cases nameiparent <;> trivial, h⟩) fun _ h => h.elim
        cases nameiparent with
        | true =>
          refine (iput_spec hv List.mem_cons_self hk (by rw [herase]; exact List.Subset.refl _)).bind
            fun _ s'' hv' => ?_
          rw [herase] at hv'
          exact ⟨rfl, fun _ d name h => (by cases h), hv'⟩
        | false => exact ⟨rfl, fun h => (by cases h), hv⟩
    | some r =>
      obtain ⟨rest, name'⟩ := r
      rw [hs] at hskip
      cases hskip with
      | @name c _ _ hcomp _ hname hsub hlt hlast =>
        rw [hcomp]
        refine (ilock_spec hv List.mem_cons_self hk.1).bind fun _ s₁ h₁ => ?_
        obtain ⟨hv₁, hl⟩ := h₁
        have hcur : s₁.copy ip = s.cur ip := by rw [← hl.cur_eq, hv₁.files.cur]
        rw [wp_bind, wp_get]
        show Wp (if (s₁.copy ip).type = T_DIR then _ else _) _ _ _
        rw [hcur]
        have hleave : s.refs ⊆ (ip :: s.refs).erase ip := by
          rw [herase]
          exact List.Subset.refl _
        refine Wp.ite (fun hdir => ?_) fun hdir => ?_
        · refine Wp.ite (fun hstop => ?_) fun hgo => ?_
          · -- one level early
            obtain ⟨hpar, hend⟩ := hstop
            have hcount : ¬ s₁.refs.count ip < 1 := by
              have hpos := List.count_pos_iff.2 hl.ref
              omega
            rw [hlast.1 hend]
            unfold iunlock
            rw [wp_bind, wp_bind, wp_get, if_neg hcount, wp_pure, wp_pure]
            subst hpar
            refine ⟨trivial, ?_, fun _ d nm hr => ⟨c, rfl, ?_⟩, hv₁⟩
            · rw [goal, if_pos rfl, parent_single, if_pos hdir]
              rfl
            · cases hr
              exact hname
          · have hmore : nameiparent = true → components rest ≠ [] := fun hp hnil =>
              hgo ⟨hp, hlast.2 hnil⟩
            rw [lookups_cons hmore]
            refine Wp.bind ((dirlookup_spec (ht.directory hv₁ hl hdir)).mono (fun _ _ h => h)
              fun e hno hroom => hno ((roomFor_iff hv₁ hname).2 fun n hn => (hroom hdir n hn).1))
              fun r s₂ hr => ?_
            obtain ⟨hroom, hlooked⟩ := hr
            rw [roomFor_iff hv₁ hname] at hroom
            have hgoal := goal_cons (s := s) (i := ip) (c := c) hmore
            rw [if_pos hdir] at hgoal
            cases hlooked with
            | absent hnone =>
              rw [hname.key_eq, hv₁.files.dir] at hnone
              refine (iunlockput_spec hv₁ List.mem_cons_self hk hleave).bind fun _ s₃ hv₃ => ?_
              rw [herase] at hv₃
              refine ⟨fun _ n hn => ?_, ?_, fun _ d nm hr => (by cases hr), hv₃⟩
              · rw [hnone] at hn
                cases hn
              · rw [hgoal, hnone]
                rfl
            | @present i n hi hent =>
              have hsome : s.dir ip (stored c) = some n := by
                rw [← hname.key_eq, ← hv₁.files.dir]
                exact (Slots.toMap_eq_some (ht.directory hv₁ hl hdir).unique).2 ⟨i, hi, hent⟩
              -- the reference to `ip` goes, the one to `n` stays
              have herase' : (n :: ip :: s.refs).erase ip = n :: s.refs := by
                by_cases hn : n = ip
                · rw [hn, List.erase_cons_head]
                · rw [List.erase_cons_tail (by simpa using hn), herase]
              refine (iunlockput_spec (hv₁.got n) (List.mem_cons_of_mem _ List.mem_cons_self) hk
                (by rw [herase']; exact List.subset_cons_self ..)).bind fun _ s₃ hv₃ => ?_
              rw [herase'] at hv₃
              refine (ih (ht.named hdir hsome) hv₃ (fun h => hz (hsub.subset h)) (by omega)).mono
                (fun r s₄ h => ⟨fun _ m hm => ?_, ?_, fun hp d nm hr => ?_, h.2.visited⟩)
                fun e hno hroom' => hno (hroom' hdir n hsome).2
              · rw [hsome] at hm
                cases hm
                exact ⟨hroom n hsome, h.1⟩
              · rw [h.2.inode, hgoal, hsome]
                rfl
              · obtain ⟨c', hc', hname'⟩ := h.2.name hp d nm hr
                refine ⟨c', ?_, hname'⟩
                rw [List.getLast?_cons_of_ne_nil (hmore hp), hc']
        · refine (iunlockput_spec hv₁ List.mem_cons_self hk hleave).bind fun _ s₂ hv₂ => ?_
          rw [herase] at hv₂
          exact ⟨roomAlong_of_not_dir hdir _, (goal_of_not_dir hdir ..).symm,
            fun _ d nm hr => (by cases hr), hv₂⟩

/-- There is room for the start of a path and for every inode on the way. -/
def RoomToWalk (s : State) (cwd : Nat) (path : List Byte) (cs : List (List Byte)) : Prop :=
  (path.headD 0 = SLASH → Room s.refs ROOTINO) ∧ RoomAlong s (start cwd path) cs

theorem namex_spec {nameiparent : Bool} {cwd : Nat} {path : List Byte} {name : Chars}
    (ht : Tree s) (hcwd : cwd ∈ s.refs) (htype : (s.cur cwd).type ≠ 0) (hz : (0 : Byte) ∉ path) :
    Wp (namex sb cwd path nameiparent name)
      (fun r s' => RoomToWalk s cwd path (lookups nameiparent (components path)) ∧
        Walked s nameiparent (start cwd path) (components path) r s')
      (fun _ => ¬ RoomToWalk s cwd path (lookups nameiparent (components path))) s := by
  have hself : Visited s s.refs s := ⟨⟨rfl, rfl, rfl⟩, rfl, rfl, rfl⟩
  unfold namex RoomToWalk start
  by_cases hroot : path.headD 0 = SLASH
  · simp only [hroot, if_true, forall_const]
    refine Wp.bind ((iget_spec ROOTINO).mono (fun _ _ h => h) fun e hno hroom => hno hroom.1)
      fun ip s₁ hip => ?_
    obtain ⟨hroom, rfl, rfl⟩ := hip
    exact (namexLoop_spec ht ht.root (hself.got _) hz (Nat.lt_succ_self _)).mono
      (fun r s' h => ⟨⟨hroom, h.1⟩, h.2⟩) fun e hno hroom => hno hroom.2
  · simp only [hroot, if_false, false_implies, true_and]
    have hv : Visited s (cwd :: s.refs) { s with refs := cwd :: s.refs } := by
      have hgot := hself.got cwd
      rwa [State.got, if_pos hcwd] at hgot
    exact Wp.bind (m := idup cwd) (Q := fun ip s' => ip = cwd ∧ Visited s (cwd :: s.refs) s')
      ⟨rfl, hv⟩ fun ip s₁ hip => by
        obtain ⟨rfl, hv₁⟩ := hip
        exact namexLoop_spec ht ⟨htype, .inr hcwd⟩ hv₁ hz (Nat.lt_succ_self _)

/-- `namei` answers the inode that the names of the path lead to, with a
reference to it, or 0. -/
def NameiFollows (sb : Superblock) (s : State) (cwd : Nat) (path : List Byte) (name : Chars) :
    Prop :=
  Wp (namei sb cwd path name) (fun r s' =>
    r = follow s (start cwd path) (components path) ∧ s'.refs = r.toList ++ s.refs ∧
      SameFiles s s') (fun _ => False) s

/-- `nameiparent` answers the directory that all names but the last lead to,
with a reference to it, and the last name, or 0. -/
def NameiparentFollows (sb : Superblock) (s : State) (cwd : Nat) (path : List Byte)
    (name : Chars) : Prop :=
  Wp (nameiparent sb cwd path name) (fun r s' =>
    r.map (·.1) = parent s (start cwd path) (components path) ∧
      (∀ dp last, r = some (dp, last) → ∃ c, (components path).getLast? = some c ∧ IsName last c) ∧
      s'.refs = (r.map (·.1)).toList ++ s.refs ∧ SameFiles s s') (fun _ => False) s

theorem nameiFollows_iff {cwd : Nat} {path : List Byte} {name : Chars} (ht : Tree s)
    (hcwd : cwd ∈ s.refs) (htype : (s.cur cwd).type ≠ 0) (hz : (0 : Byte) ∉ path) :
    NameiFollows sb s cwd path name ↔ RoomToWalk s cwd path (components path) := by
  refine wp_total_iff ((namex_spec ht hcwd htype hz).bind fun r s' h => ?_)
  exact ⟨h.1, h.2.inode, h.2.visited.refs_eq, h.2.visited.files⟩

theorem nameiparentFollows_iff {cwd : Nat} {path : List Byte} {name : Chars} (ht : Tree s)
    (hcwd : cwd ∈ s.refs) (htype : (s.cur cwd).type ≠ 0) (hz : (0 : Byte) ∉ path) :
    NameiparentFollows sb s cwd path name ↔
      RoomToWalk s cwd path (components path).dropLast := by
  refine wp_total_iff ((namex_spec ht hcwd htype hz).post fun r s' h => ?_)
  exact ⟨h.1, h.2.inode, h.2.name rfl, h.2.visited.refs_eq, h.2.visited.files⟩

theorem tree_lone : Tree (lone T_DIR) := by
  have hcur : ∀ i, (lone T_DIR).cur i = (lone T_DIR).dinode i := fun i =>
    ite_self ((lone T_DIR).dinode i)
  have hone : ∀ {i}, ((lone T_DIR).cur i).type = T_DIR → i = 1 := by
    intro i htype
    by_contra hne
    rw [hcur] at htype
    simp [lone, hne, Dinode.zero] at htype
  have hkept : Kept (lone T_DIR) 1 := by
    unfold Kept
    rw [hcur]
    exact ⟨by decide, .inl (by decide)⟩
  refine ⟨fun htype => ?_, fun htype hn => ?_, hkept⟩
  · obtain rfl := hone htype
    exact ⟨directory_lone.allocated, directory_lone.aligned, directory_lone.unique⟩
  · obtain rfl := hone htype
    cases hn

theorem tree_crowded : Tree crowded := by
  have hkept : ∀ i, Kept crowded i := fun i => by
    unfold Kept
    rw [cur_crowded]
    by_cases hi : i = 1 <;> simp [crowded, hi]
  refine ⟨fun {i} htype => ?_, fun _ _ => hkept _, hkept _⟩
  have hi : i = 1 := by
    by_contra hne
    rw [cur_crowded] at htype
    simp [crowded, hne] at htype
  subst hi
  exact ⟨directory_crowded.allocated, directory_crowded.aligned, directory_crowded.unique⟩

end Xv6.Fs
