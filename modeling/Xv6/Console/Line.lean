import Xv6.Proc.Sched
import Xv6.Ring.Fifo

/-!
# The line discipline

What the console makes of the characters that are typed, without indices: a
text that is committed, of which readers have taken a part, and a line that
can still be edited.  `cons` tracks it.
-/

namespace Xv6.Console

/-- The character of a control key. -/
def ctrl (x : Char) : Byte := BitVec.ofNat 8 (x.toNat - '@'.toNat)

def newline : Byte := 10

/-- What has been committed, the number of characters that readers have taken
of it, and the line that is edited. -/
structure Editor where
  committed : List Byte
  taken : Nat
  edit : List Byte

namespace Editor

/-- What is committed and waits for a reader. -/
def ready (ed : Editor) : List Byte := ed.committed.drop ed.taken

/-- A character joins the line, and the line is committed when it ends or when
there is no room for more. -/
def append (ed : Editor) (c : Byte) : Editor :=
  if c = newline ∨ c = ctrl 'D' ∨ ed.ready.length + ed.edit.length + 1 = INPUT_BUF_SIZE then
    { ed with committed := ed.committed ++ (ed.edit ++ [c]), edit := [] }
  else { ed with edit := ed.edit ++ [c] }

/-- A character is typed. -/
def type (ed : Editor) (c : Byte) : Editor :=
  if c = 0 ∨ c = ctrl 'P' then ed
  else if c = ctrl 'U' then { ed with edit := [] }
  else if c = ctrl 'H' ∨ c = 0x7f then { ed with edit := ed.edit.dropLast }
  else if ed.ready.length + ed.edit.length < INPUT_BUF_SIZE then
    ed.append (if c = ctrl 'M' then newline else c)
  else ed

/-- A reader takes a character. -/
def take (ed : Editor) : Editor := { ed with taken := ed.taken + 1 }

/-- What readers have got: an end of file is no character. -/
def delivered (ed : Editor) : List Byte := (ed.committed.take ed.taken).filter (· ≠ ctrl 'D')

end Editor

/-- The indices and the ring belong to the text. -/
structure Tracks (cons : Cons) (ed : Editor) : Prop where
  holds : Ring.Holds cons.buf cons.r cons.e (ed.ready ++ ed.edit)
  w : cons.w = cons.r + BitVec.ofNat 32 ed.ready.length
  open_ : newline ∉ ed.edit
  taken : ed.taken ≤ ed.committed.length

variable {cons : Cons} {ed : Editor} {c : Byte}

theorem fits_INPUT_BUF_SIZE : Ring.Fits INPUT_BUF_SIZE 32 := ⟨by decide, by decide⟩

/-- An index moves by as many characters as there are. -/
theorem add_length_eq_iff {i : I32} {text : List Byte} (h : text.length ≤ INPUT_BUF_SIZE) :
    i + BitVec.ofNat 32 text.length = i ↔ text = [] := by
  simp only [INPUT_BUF_SIZE] at h
  constructor
  · intro heq
    have hzero : BitVec.ofNat 32 text.length = 0 := by
      simpa using heq
    have hnat := congrArg BitVec.toNat hzero
    simp only [BitVec.toNat_ofNat, BitVec.ofNat_eq_ofNat, Nat.zero_mod] at hnat
    exact List.length_eq_zero_iff.1 (by omega)
  · intro hnil
    simp [hnil]

namespace Tracks

theorem lengths (h : Tracks cons ed) : ed.ready.length + ed.edit.length ≤ INPUT_BUF_SIZE := by
  have hle := h.holds.le
  rwa [List.length_append] at hle

theorem e_eq (h : Tracks cons ed) : cons.e = cons.w + BitVec.ofNat 32 ed.edit.length := by
  rw [h.holds.wr_eq, h.w, List.length_append, BitVec.ofNat_add, ← BitVec.add_assoc]

/-- The order of the indices, wherever they are. -/
theorem indices (h : Tracks cons ed) :
    (cons.w - cons.r).toNat ≤ (cons.e - cons.r).toNat ∧
      (cons.e - cons.r).toNat ≤ INPUT_BUF_SIZE := by
  have hle := h.lengths
  have hw : (cons.w - cons.r).toNat = ed.ready.length := by
    simp only [INPUT_BUF_SIZE] at hle
    rw [h.w, BitVec.add_comm, BitVec.add_sub_cancel, BitVec.toNat_ofNat]
    omega
  rw [hw, ← h.holds.length, List.length_append]
  omega

theorem e_eq_w_iff (h : Tracks cons ed) : cons.e = cons.w ↔ ed.edit = [] := by
  have hle := h.lengths
  rw [h.e_eq]
  exact add_length_eq_iff (by omega)

theorem r_eq_w_iff (h : Tracks cons ed) : cons.r = cons.w ↔ ed.ready = [] := by
  have hle := h.lengths
  rw [h.w, eq_comm]
  exact add_length_eq_iff (by omega)

theorem room_iff (h : Tracks cons ed) :
    cons.e - cons.r < BitVec.ofNat 32 INPUT_BUF_SIZE ↔
      ed.ready.length + ed.edit.length < INPUT_BUF_SIZE := by
  rw [BitVec.lt_def, ← h.holds.length, List.length_append]
  rfl

/-! ## Editing -/

/-- Backspace. -/
theorem back (h : Tracks cons ed) {line : List Byte} {a : Byte} (hedit : ed.edit = line ++ [a]) :
    cons.at (cons.e - 1) = a ∧
      Tracks { cons with e := cons.e - 1 } { ed with edit := line } := by
  have hholds := h.holds
  rw [hedit, ← List.append_assoc] at hholds
  obtain ⟨hcell, hback⟩ := hholds.pop_back fits_INPUT_BUF_SIZE
  refine ⟨hcell, hback, h.w, fun hmem => h.open_ ?_, h.taken⟩
  rw [hedit]
  exact List.mem_append_left _ hmem

/-- The loop for kill line goes back over the whole line. -/
theorem killLine (h : Tracks cons ed) (n : Nat) (hn : ed.edit.length ≤ n) :
    Tracks (killLine n cons) { ed with edit := [] } := by
  induction n generalizing cons ed with
  | zero =>
    have hnil : ed.edit = [] := List.length_eq_zero_iff.1 (by omega)
    rw [← hnil]
    exact h
  | succ n ih =>
    rw [Xv6.killLine]
    rcases List.eq_nil_or_concat ed.edit with hnil | ⟨line, a, hedit⟩
    · rw [if_neg (by simp [h.e_eq_w_iff, hnil]), ← hnil]
      exact h
    · rw [List.concat_eq_append] at hedit
      obtain ⟨hat, hback⟩ := h.back hedit
      have hne : cons.e ≠ cons.w := by
        rw [Ne, h.e_eq_w_iff, hedit]
        simp
      have ha : cons.at (cons.e - 1) ≠ 10 := by
        rw [hat]
        intro heq
        apply h.open_
        rw [hedit, heq]
        simp [newline]
      rw [if_pos ⟨hne, ha⟩]
      rw [hedit, List.length_append, List.length_singleton] at hn
      have hkill := ih hback (Nat.le_of_succ_le_succ hn)
      exact hkill

theorem sub_toNat (h : Tracks cons ed) : (cons.e - cons.w).toNat = ed.edit.length := by
  have hle := h.lengths
  simp only [INPUT_BUF_SIZE] at hle
  rw [h.e_eq, BitVec.add_comm, BitVec.add_sub_cancel, BitVec.toNat_ofNat]
  omega

/-- One more character. -/
theorem store (h : Tracks cons ed) (hroom : ed.ready.length + ed.edit.length < INPUT_BUF_SIZE)
    (c : Byte) :
    Ring.Holds (cons.store (c.setWidth 32)).buf cons.r (cons.e + 1)
      (ed.ready ++ (ed.edit ++ [c])) := by
  have hc : (c.setWidth 32).setWidth 8 = c := by simp
  rw [← List.append_assoc]
  show Ring.Holds (fun i => if i = _ then (c.setWidth 32).setWidth 8 else cons.buf i) _ _ _
  rw [hc]
  exact h.holds.push fits_INPUT_BUF_SIZE (by simpa using hroom) c

end Tracks

/-! ## One character -/

theorem setWidth_eq_iff (c : Byte) (k : Nat) (hk : k < 256) :
    c.setWidth 32 = BitVec.ofNat 32 k ↔ c = BitVec.ofNat 8 k := by
  rw [← BitVec.toNat_inj, ← BitVec.toNat_inj]
  simp only [BitVec.toNat_setWidth, BitVec.toNat_ofNat]
  omega

/-- The editor between two characters of a line. -/
theorem ready_append (ed : Editor) (line : List Byte) (h : ed.taken ≤ ed.committed.length) :
    { ed with committed := ed.committed ++ line, edit := [] }.ready = ed.ready ++ line := by
  show (ed.committed ++ line).drop ed.taken = ed.committed.drop ed.taken ++ line
  exact List.drop_append_of_le_length h

namespace Tracks

theorem append (h : Tracks cons ed) (hroom : ed.ready.length + ed.edit.length < INPUT_BUF_SIZE)
    (c : Byte) :
    Tracks (if c.setWidth 32 = (10 : I32) ∨ c.setWidth 32 = C 'D' ∨
        (cons.store (c.setWidth 32)).e - (cons.store (c.setWidth 32)).r =
          BitVec.ofNat 32 INPUT_BUF_SIZE then
      { cons.store (c.setWidth 32) with w := (cons.store (c.setWidth 32)).e }
      else cons.store (c.setWidth 32)) (ed.append c) := by
  have hstore := h.store hroom c
  have hfull : cons.e + 1 - cons.r = BitVec.ofNat 32 INPUT_BUF_SIZE ↔
      ed.ready.length + ed.edit.length + 1 = INPUT_BUF_SIZE := by
    have hlength := hstore.length
    simp only [List.length_append, List.length_singleton] at hlength
    rw [← BitVec.toNat_inj, ← hlength, Nat.add_assoc]
    rfl
  have hnewline : c.setWidth 32 = (10 : I32) ↔ c = newline := setWidth_eq_iff c 10 (by decide)
  have heof : c.setWidth 32 = C 'D' ↔ c = ctrl 'D' := setWidth_eq_iff c 4 (by decide)
  have hcond : (c.setWidth 32 = (10 : I32) ∨ c.setWidth 32 = C 'D' ∨
      (cons.store (c.setWidth 32)).e - (cons.store (c.setWidth 32)).r =
        BitVec.ofNat 32 INPUT_BUF_SIZE) ↔
      (c = newline ∨ c = ctrl 'D' ∨
        ed.ready.length + ed.edit.length + 1 = INPUT_BUF_SIZE) :=
    or_congr hnewline (or_congr heof hfull)
  rw [Editor.append]
  by_cases hcommit : c = newline ∨ c = ctrl 'D' ∨
      ed.ready.length + ed.edit.length + 1 = INPUT_BUF_SIZE
  · rw [if_pos (hcond.2 hcommit), if_pos hcommit]
    have hready := ready_append ed (ed.edit ++ [c]) h.taken
    refine ⟨?_, ?_, by simp, ?_⟩
    · rw [hready]
      show Ring.Holds _ _ _ (ed.ready ++ (ed.edit ++ [c]) ++ [])
      rw [List.append_nil]
      exact hstore
    · rw [hready]
      exact hstore.wr_eq
    · have htaken := h.taken
      simp only [List.length_append]
      omega
  · rw [if_neg (fun hif => hcommit (hcond.1 hif)), if_neg hcommit]
    refine ⟨hstore, h.w, fun hmem => ?_, h.taken⟩
    rcases List.mem_append.1 hmem with hmem | hmem
    · exact h.open_ hmem
    · exact hcommit (.inl (List.mem_singleton.1 hmem).symm)

/-- `consoleintr` does what the editor does. -/
theorem intr (h : Tracks cons ed) (c : Byte) :
    Tracks (cons.intr (c.setWidth 32)).1 (ed.type c) := by
  have hP : c.setWidth 32 = C 'P' ↔ c = ctrl 'P' := setWidth_eq_iff c 16 (by decide)
  have hU : c.setWidth 32 = C 'U' ↔ c = ctrl 'U' := setWidth_eq_iff c 21 (by decide)
  have hH : c.setWidth 32 = C 'H' ↔ c = ctrl 'H' := setWidth_eq_iff c 8 (by decide)
  have hDel : c.setWidth 32 = (0x7f : I32) ↔ c = 0x7f := setWidth_eq_iff c 127 (by decide)
  have hM : c.setWidth 32 = (13 : I32) ↔ c = ctrl 'M' := setWidth_eq_iff c 13 (by decide)
  have hzero : c.setWidth 32 = (0 : I32) ↔ c = 0 := setWidth_eq_iff c 0 (by decide)
  rw [Cons.intr, Editor.type]
  simp only [hP, hU, hH, hDel, hM, hzero, h.room_iff, Ne]
  by_cases hignored : c = 0 ∨ c = ctrl 'P'
  · rw [if_pos hignored]
    rcases hignored with rfl | rfl
    · simpa [ctrl] using h
    · simpa using h
  rw [if_neg hignored, if_neg (fun hp => hignored (.inr hp))]
  by_cases hkill : c = ctrl 'U'
  · rw [if_pos hkill, if_pos hkill]
    exact h.killLine _ h.sub_toNat.ge
  rw [if_neg hkill, if_neg hkill]
  by_cases hback : c = ctrl 'H' ∨ c = 0x7f
  · rw [if_pos hback, if_pos hback]
    rcases List.eq_nil_or_concat ed.edit with hnil | ⟨line, a, hedit⟩
    · rw [if_neg (by simp [h.e_eq_w_iff, hnil]), hnil, List.dropLast_nil, ← hnil]
      exact h
    · rw [List.concat_eq_append] at hedit
      rw [if_pos (by simp [h.e_eq_w_iff, hedit]), hedit, List.dropLast_concat]
      exact (h.back hedit).2
  rw [if_neg hback, if_neg hback]
  by_cases hroom : ed.ready.length + ed.edit.length < INPUT_BUF_SIZE
  · rw [if_pos ⟨fun hc => hignored (.inl hc), hroom⟩, if_pos hroom]
    have htranslate : (if c = ctrl 'M' then (10 : I32) else c.setWidth 32) =
        (if c = ctrl 'M' then newline else c).setWidth 32 := by
      split_ifs <;> rfl
    rw [htranslate]
    have happend := h.append hroom (if c = ctrl 'M' then newline else c)
    rw [apply_ite Prod.fst]
    exact happend
  · rw [if_neg (fun hc => hroom hc.2), if_neg hroom]
    exact h

/-- A reader takes the oldest committed character. -/
theorem pop (h : Tracks cons ed) (hne : cons.r ≠ cons.w) :
    Tracks { cons with r := cons.r + 1 } ed.take ∧
      ed.ready = cons.at cons.r :: ed.take.ready := by
  rcases hready : ed.ready with _ | ⟨a, rest⟩
  · exact absurd (h.r_eq_w_iff.2 hready) hne
  have htake : ed.take.ready = rest := by
    show ed.committed.drop (ed.taken + 1) = rest
    rw [← List.drop_drop]
    show ed.ready.drop 1 = rest
    rw [hready]
    rfl
  have hholds := h.holds
  rw [hready, List.cons_append] at hholds
  obtain ⟨hcell, hrest⟩ := hholds.pop fits_INPUT_BUF_SIZE
  have hat : cons.at cons.r = a := hcell
  refine ⟨⟨?_, ?_, h.open_, ?_⟩, ?_⟩
  · rw [htake]
    exact hrest
  · rw [htake, h.w, hready, List.length_cons, Nat.add_comm, BitVec.ofNat_add, ← BitVec.add_assoc]
    rfl
  · have hlength := congrArg List.length hready
    rw [List.length_cons] at hlength
    have hdrop : ed.ready.length = ed.committed.length - ed.taken := List.length_drop
    show ed.taken + 1 ≤ ed.committed.length
    omega
  · rw [htake, hat]

end Tracks

theorem Editor.delivered_take {ed : Editor} {rest : List Byte} (h : ed.ready = c :: rest) :
    ed.take.delivered = ed.delivered ++ [c].filter (· ≠ ctrl 'D') := by
  have htake : ed.committed.take (ed.taken + 1) = ed.committed.take ed.taken ++ [c] := by
    rw [List.take_add, List.append_cancel_left_eq]
    show ed.ready.take 1 = [c]
    rw [h]
    rfl
  show (ed.committed.take (ed.taken + 1)).filter _ = _
  rw [htake, List.filter_append]
  rfl

/-- What has been taken does not change when more is typed. -/
theorem Editor.delivered_type (h : ed.taken ≤ ed.committed.length) (c : Byte) :
    (ed.type c).delivered = ed.delivered := by
  have happend : ∀ c, (ed.append c).delivered = ed.delivered := by
    intro c
    rw [Editor.append]
    split_ifs
    · show ((ed.committed ++ (ed.edit ++ [c])).take ed.taken).filter _ = _
      rw [List.take_append_of_le_length h]
      rfl
    · rfl
  rw [Editor.type]
  split_ifs
  · rfl
  · rfl
  · rfl
  · exact happend _
  · exact happend _
  · rfl

/-- The console before the first character. -/
theorem tracks_start (buf : Fin INPUT_BUF_SIZE → Byte) (i : I32) :
    Tracks ⟨buf, i, i, i⟩ ⟨[], 0, []⟩ where
  holds := .empty buf i
  w := by simp [Editor.ready]
  open_ := by simp
  taken := Nat.le_refl _

end Xv6.Console
