import Xv6.Virtio.Rules

/-!
# What the driver does

Three descriptors are allocated or none; a request takes them and gives them
back.  An interrupt clears the flag of the buffer whose chain is the oldest in
the used ring.
-/

namespace Xv6.Virtio

open Conc

variable {P B C : Type} [DecidableEq B] {s s' s'' : State P B C}
  {avail work used mine : List (Fin NUM)}

/-! ## Allocation -/

/-- From `s` to `s'` the descriptors `mine` have been taken, and others may
have been taken and given back. -/
structure Tried (s s' : State P B C) (mine : List (Fin NUM)) : Prop where
  nodup : mine.Nodup
  was : ∀ i ∈ mine, s.disk.free i = true
  free_iff : ∀ i, s'.disk.free i = true ↔ s.disk.free i = true ∧ i ∉ mine
  desc : ∀ i, s.disk.free i = false → s'.disk.desc i = s.disk.desc i
  rest : ∃ desc free asleep, s' = { s with
    disk := { s.disk with desc := desc, free := free }, asleep := asleep }

omit [DecidableEq B] in
theorem Tried.refl (s : State P B C) : Tried s s [] where
  nodup := List.nodup_nil
  was _ h := absurd h List.not_mem_nil
  free_iff _ := ⟨fun h => ⟨h, List.not_mem_nil⟩, fun h => h.1⟩
  desc _ _ := rfl
  rest := ⟨s.disk.desc, s.disk.free, s.asleep, rfl⟩

omit [DecidableEq B] in
theorem Tried.alloc {r : Option (Fin NUM)} (h : Tried s s' mine)
    (hx : alloc_desc s' = (r, s'')) : Tried s s'' (r.elim mine fun i => i :: mine) := by
  unfold alloc_desc at hx
  cases hfind : (List.finRange NUM).find? s'.disk.free with
  | none =>
    rw [hfind] at hx
    obtain ⟨rfl, rfl⟩ := Prod.mk.inj hx
    exact h
  | some i =>
    rw [hfind] at hx
    obtain ⟨rfl, rfl⟩ := Prod.mk.inj hx
    have hi := (h.free_iff i).1 (List.find?_some hfind)
    obtain ⟨desc, free, asleep, rfl⟩ := h.rest
    refine ⟨List.nodup_cons.2 ⟨hi.2, h.nodup⟩, fun j hj => ?_, fun j => ?_, h.desc,
      desc, Function.update free i false, asleep, rfl⟩
    · rcases List.mem_cons.1 hj with rfl | hj
      · exact hi.1
      · exact h.was j hj
    · show Function.update free i false j = true ↔ _
      have hfree := h.free_iff j
      by_cases hij : j = i
      · subst hij
        rw [Function.update_self]
        exact ⟨fun hj => Bool.noConfusion hj, fun hj => absurd (List.mem_cons_self ..) hj.2⟩
      · rw [Function.update_of_ne hij]
        refine hfree.trans (and_congr_right fun _ => not_congr ?_)
        rw [Option.elim_some, List.mem_cons]
        exact ⟨.inr, fun hj => hj.resolve_left hij⟩

/-- After descriptor `i` has been freed. -/
def State.freed (s : State P B C) (i : Fin NUM) : State P B C :=
  State.wakeup { s with
    disk.desc := Function.update s.disk.desc i .zero
    disk.free := Function.update s.disk.free i true } .free

theorem free_desc_ok {i : Fin NUM} (h : s.disk.free i = false) :
    free_desc i s = .ok (s.freed i) := by
  unfold free_desc
  have hi : ¬ s.disk.free ⟨i.val, i.isLt⟩ = true := by
    rw [h]
    exact Bool.false_ne_true
  rw [dif_pos i.isLt, if_neg hi]
  rfl

/-- What has been taken can be given back. -/
theorem Tried.free {i : Fin NUM} (h : Tried s s' mine) (hi : i ∈ mine) :
    ∃ s'', free_desc i s' = .ok s'' ∧ Tried s s'' (mine.erase i) := by
  have hwas := h.was i hi
  have hnow : s'.disk.free i = false :=
    Bool.eq_false_iff.2 fun hfree => ((h.free_iff i).1 hfree).2 hi
  refine ⟨_, free_desc_ok hnow, ?_⟩
  obtain ⟨desc, free, asleep, rfl⟩ := h.rest
  refine ⟨h.nodup.erase i, fun j hj => h.was j (List.mem_of_mem_erase hj), fun j => ?_,
    fun j hj => ?_, Function.update desc i .zero, Function.update free i true, _, rfl⟩
  · show Function.update free i true j = true ↔ _
    by_cases hij : j = i
    · subst hij
      rw [Function.update_self]
      exact ⟨fun _ => ⟨hwas, h.nodup.not_mem_erase⟩, fun _ => rfl⟩
    · rw [Function.update_of_ne hij, List.mem_erase_of_ne hij]
      exact h.free_iff j
  · have hij : j ≠ i := by
      rintro rfl
      rw [hwas] at hj
      cases hj
    show Function.update desc i .zero j = _
    rw [Function.update_of_ne hij]
    exact h.desc j hj

def three (idx : Fin NUM × Fin NUM × Fin NUM) : List (Fin NUM) := [idx.2.2, idx.2.1, idx.1]

/-- Three descriptors, or none. -/
theorem alloc3_spec (s : State P B C) :
    ∃ r s', alloc3_desc s = .ok (r, s') ∧ Tried s s' (r.elim [] three) := by
  obtain ⟨r0, s0, h0⟩ : ∃ r0 s0, alloc_desc s = (r0, s0) := ⟨_, _, rfl⟩
  have t0 := (Tried.refl s).alloc h0
  unfold alloc3_desc
  rw [h0]
  cases r0 with
  | none => exact ⟨none, s0, rfl, t0⟩
  | some i0 =>
    obtain ⟨r1, s1, h1⟩ : ∃ r1 s1, alloc_desc s0 = (r1, s1) := ⟨_, _, rfl⟩
    have t1 := t0.alloc h1
    dsimp only
    rw [h1]
    cases r1 with
    | none =>
      have t1 : Tried s s1 [i0] := t1
      obtain ⟨sa, ha, ta⟩ := t1.free (List.mem_cons_self ..)
      refine ⟨none, sa, ?_, ?_⟩
      · show (free_desc i0 s1).bind _ = _
        rw [ha]
        rfl
      · rw [List.erase_cons_head] at ta
        exact ta
    | some i1 =>
      obtain ⟨r2, s2, h2⟩ : ∃ r2 s2, alloc_desc s1 = (r2, s2) := ⟨_, _, rfl⟩
      have t2 := t1.alloc h2
      dsimp only
      rw [h2]
      cases r2 with
      | none =>
        have t2 : Tried s s2 [i1, i0] := t2
        have hne : i1 ≠ i0 := fun h => (List.nodup_cons.1 t2.nodup).1 (h ▸ List.mem_cons_self ..)
        obtain ⟨sa, ha, ta⟩ := t2.free (List.mem_cons_of_mem _ (List.mem_cons_self ..))
        obtain ⟨sb, hb, tb⟩ := ta.free
          ((List.mem_erase_of_ne hne).2 (List.mem_cons_self ..))
        refine ⟨none, sb, ?_, ?_⟩
        · show (free_desc i0 s2).bind _ = _
          rw [ha]
          show (free_desc i1 sa).bind _ = _
          rw [hb]
          rfl
        · have hnil : ([i1, i0].erase i0).erase i1 = [] := by
            rw [List.erase_cons_tail (by simpa using hne), List.erase_cons_head,
              List.erase_cons_head]
          rw [hnil] at tb
          exact tb
      | some i2 => exact ⟨some (i0, i1, i2), s2, rfl, t2⟩

omit [DecidableEq B] in
/-- Allocation does not touch the requests in flight. -/
theorem Wf.tried (h : Wf s avail work used) (hf : FreeBut s []) (ht : Tried s s' mine) :
    Wf s' avail work used ∧ FreeBut s' mine := by
  have hfree := ht.free_iff
  have hdesc := ht.desc
  have hwas := ht.was
  have hnodup := ht.nodup
  obtain ⟨desc, free, asleep, rfl⟩ := ht.rest
  have hunowned : ∀ i, s.disk.free i = true → ∀ p r, s.requests p = some r → i ∉ r.idx :=
    fun i hi => ((hf.free_iff i).1 hi).2
  refine ⟨?_, hnodup, fun i hi => hunowned i (hwas i hi), fun i => ?_⟩
  · exact {
      availRing := h.availRing
      usedRing := h.usedRing
      pending := h.pending
      nodup := h.nodup
      live := h.live
      flag := h.flag
      placed := fun p r hr => by
        have hp := h.placed p r hr
        refine ⟨hp.nodup, fun i hi => Bool.eq_false_iff.2 fun htrue => ?_, ?_, ?_, ?_, hp.header,
          hp.holder⟩
        · have hi' := ((hfree i).1 htrue).1
          rw [hp.free i hi] at hi'
          cases hi'
        · exact (hdesc _ (hp.free _ r.mem0)).trans hp.desc0
        · exact (hdesc _ (hp.free _ r.mem1)).trans hp.desc1
        · exact (hdesc _ (hp.free _ r.mem2)).trans hp.desc2
      disjoint := h.disjoint
      seen := h.seen
      done := h.done
      info := h.info
      status := h.status }
  · refine (hfree i).trans ⟨fun hi => ⟨hi.2, hunowned i hi.1⟩, fun hi => ⟨?_, hi.1⟩⟩
    exact (hf.free_iff i).2 ⟨List.not_mem_nil, hi.2⟩

/-! ## Requests -/

section request

variable [DecidableEq P] {p : P} {b : B}

omit [DecidableEq P] in
theorem format_desc_of_not_mem {r : Request B} {i : Fin NUM} (h : i ∉ r.idx) :
    (format r s).disk.desc i = s.disk.desc i := by
  have hne : i ≠ r.i0 ∧ i ≠ r.i1 ∧ i ≠ r.i2 := by
    simpa only [Request.idx, List.mem_cons, List.not_mem_nil, or_false, not_or] using h
  show Function.update (Function.update (Function.update s.disk.desc _ _) _ _) _ _ i = _
  rw [Function.update_of_ne hne.2.2, Function.update_of_ne hne.2.1, Function.update_of_ne hne.1]

omit [DecidableEq P] in
/-- The request that is formatted is in place. -/
theorem placed_format {r : Request B} (hnodup : r.idx.Nodup)
    (hfree : ∀ i ∈ r.idx, s.disk.free i = false) (hholder : s.holder r.b = some p) :
    Placed (format r s) p r where
  nodup := hnodup
  free := hfree
  desc0 := by
    obtain ⟨h01, h02, -⟩ := Request.ne_of_nodup hnodup
    show Function.update (Function.update (Function.update s.disk.desc _ _) _ _) _ _ r.i0 = _
    rw [Function.update_of_ne h02, Function.update_of_ne h01, Function.update_self]
  desc1 := by
    obtain ⟨-, -, h12⟩ := Request.ne_of_nodup hnodup
    show Function.update (Function.update (Function.update s.disk.desc _ _) _ _) _ _ r.i1 = _
    rw [Function.update_of_ne h12, Function.update_self]
  desc2 := Function.update_self ..
  header := Function.update_self ..
  holder := hholder

omit [DecidableEq P] in
/-- The others stay in place. -/
theorem Placed.format {q : P} {r r' : Request B} (h : Placed s q r')
    (hdis : r'.idx.Disjoint r.idx) : Placed (format r s) q r' where
  nodup := h.nodup
  free := h.free
  desc0 := (format_desc_of_not_mem (hdis r'.mem0)).trans h.desc0
  desc1 := (format_desc_of_not_mem (hdis r'.mem1)).trans h.desc1
  desc2 := (format_desc_of_not_mem (hdis r'.mem2)).trans h.desc2
  header := by
    show Function.update s.disk.ops r.i0 r.header r'.i0 = _
    rw [Function.update_of_ne (Request.i0_ne hdis)]
    exact h.header
  holder := h.holder

omit [DecidableEq B] [DecidableEq P] in
/-- The buffer that a process without a request holds has no request. -/
theorem Wf.unflagged (h : Wf s avail work used) (hnone : s.requests p = none)
    (hholder : s.holder b = some p) {q : P} {r : Request B} (hr : s.requests q = some r) :
    q ≠ p ∧ r.b ≠ b := by
  have hne : q ≠ p := by
    rintro rfl
    rw [hnone] at hr
    cases hr
  refine ⟨hne, ?_⟩
  rintro rfl
  rw [(h.placed q r hr).holder] at hholder
  exact hne (Option.some.inj hholder)

/-- A request gets its descriptors, and its chain is posted. -/
theorem Wf.submit {idx : Fin NUM × Fin NUM × Fin NUM} (h : Wf s avail work used)
    (write : Bool) (hf : FreeBut s (three idx)) (hnone : s.requests p = none)
    (hholder : s.holder b = some p) :
    Wf (submit p b write idx s) (avail ++ [idx.1]) work used ∧
      FreeBut (Virtio.submit p b write idx s) [] ∧
      ∃ r, (Virtio.submit p b write idx s).requests p = some r ∧ r.b = b ∧ r.i0 = idx.1 := by
  obtain ⟨i0, i1, i2⟩ := idx
  obtain ⟨r, hdef⟩ : ∃ r : Request B,
      r = ⟨b, write, sectorOf (s.blockno b), i0, i1, i2⟩ := ⟨_, rfl⟩
  have hs : Virtio.submit p b write (i0, i1, i2) s = post p r (format r s) := by
    rw [hdef]
    rfl
  have hb : r.b = b := by rw [hdef]
  have hi0 : r.i0 = i0 := by rw [hdef]
  have hmine : ∀ i, i ∈ three (i0, i1, i2) ↔ i ∈ r.idx := by
    intro i
    rw [hdef]
    simp only [three, Request.idx, List.mem_cons, List.not_mem_nil]
    tauto
  have hnodup : r.idx.Nodup := by
    have hrev : r.idx = (three (i0, i1, i2)).reverse := by
      rw [hdef]
      rfl
    rw [hrev]
    exact List.nodup_reverse.2 hf.nodup
  have hapart : ∀ q r', s.requests q = some r' → r.idx.Disjoint r'.idx := fun q r' hr' i hi =>
    hf.apart i ((hmine i).2 hi) q r' hr'
  have hout : r.i0 ∉ avail ++ work ++ used := by
    intro hmem
    obtain ⟨q, r', hr', heq, -⟩ := (h.live _).1 hmem
    exact hapart q r' hr' (List.mem_cons_self ..) (heq ▸ List.mem_cons_self ..)
  have hperm : (avail ++ [r.i0] ++ work ++ used).Perm (r.i0 :: (avail ++ work ++ used)) := by
    refine List.perm_iff_count.2 fun a => ?_
    simp only [List.count_append, List.count_cons, List.count_nil]
    omega
  have hroom : (avail.map u16).length < NUM := by
    have hcons : (r.i0 :: (avail ++ work ++ used)).Nodup := List.nodup_cons.2 ⟨hout, h.nodup⟩
    have hle := hcons.length_le_card
    rw [Fintype.card_fin, List.length_cons, List.length_append, List.length_append] at hle
    rw [List.length_map]
    omega
  have hself : Function.update s.requests p (some r) p = some r := Function.update_self ..
  have hcases : ∀ q r', Function.update s.requests p (some r) q = some r' →
      (q = p ∧ r' = r) ∨ (q ≠ p ∧ s.requests q = some r' ∧ r'.b ≠ b ∧ r'.idx.Disjoint r.idx) := by
    intro q r' hr'
    by_cases hq : q = p
    · subst hq
      rw [hself] at hr'
      exact .inl ⟨rfl, (Option.some.inj hr').symm⟩
    · rw [Function.update_of_ne hq] at hr'
      exact .inr ⟨hq, hr', (h.unflagged hnone hholder hr').2, (hapart q r' hr').symm⟩
  have hfree : ∀ i ∈ r.idx, s.disk.free i = false := fun i hi =>
    Bool.eq_false_iff.2 fun htrue => ((hf.free_iff i).1 htrue).1 ((hmine i).2 hi)
  have hlive : ∀ q r', s.requests q = some r' → (Function.update s.disk.bdisk r.b true r'.b = true ↔
      s.disk.bdisk r'.b = true) := fun q r' hr' => by
    rw [Function.update_of_ne]
    rw [hb]
    exact (h.unflagged hnone hholder hr').2
  rw [hs, ← hi0]
  refine ⟨?_, ⟨List.nodup_nil, fun _ hi => absurd hi List.not_mem_nil, fun i => ?_⟩,
    r, hself, hb, rfl⟩
  · exact {
      availRing := by
        rw [List.map_append]
        exact h.availRing.push fits_NUM hroom (u16 r.i0)
      usedRing := h.usedRing
      pending := h.pending
      nodup := hperm.nodup_iff.2 (List.nodup_cons.2 ⟨hout, h.nodup⟩)
      live := fun j => by
        rw [hperm.mem_iff, List.mem_cons, h.live j]
        constructor
        · rintro (rfl | ⟨q, r', hr', heq, hflag⟩)
          · exact ⟨p, r, hself, rfl, Function.update_self ..⟩
          · refine ⟨q, r', ?_, heq, (hlive q r' hr').2 hflag⟩
            exact (Function.update_of_ne (h.unflagged hnone hholder hr').1 ..).trans hr'
        · rintro ⟨q, r', hr', heq, hflag⟩
          rcases hcases q r' hr' with ⟨rfl, rfl⟩ | ⟨-, hr', -, -⟩
          · exact .inl heq.symm
          · exact .inr ⟨q, r', hr', heq, (hlive q r' hr').1 hflag⟩
      flag := fun c hc => by
        have hc : Function.update s.disk.bdisk r.b true c = true := hc
        by_cases hcb : c = r.b
        · exact ⟨p, r, hself, hcb.symm⟩
        · rw [Function.update_of_ne hcb] at hc
          obtain ⟨q, r', hr', heq⟩ := h.flag c hc
          exact ⟨q, r', (Function.update_of_ne (h.unflagged hnone hholder hr').1 ..).trans hr', heq⟩
      placed := fun q r' hr' => by
        rcases hcases q r' hr' with ⟨rfl, rfl⟩ | ⟨-, hr', -, hdis⟩
        · exact (placed_format hnodup hfree (hb ▸ hholder)).congr rfl rfl rfl (hb ▸ hholder)
        · exact ((h.placed q r' hr').format hdis).congr rfl rfl rfl (h.placed q r' hr').holder
      disjoint := fun q q' r' r'' hr' hr'' hne => by
        rcases hcases q r' hr' with ⟨rfl, rfl⟩ | ⟨-, hr', -, hdis⟩
        · rcases hcases q' r'' hr'' with ⟨rfl, rfl⟩ | ⟨-, hr'', -, hdis⟩
          · exact absurd rfl hne
          · exact hdis.symm
        · rcases hcases q' r'' hr'' with ⟨rfl, rfl⟩ | ⟨-, hr'', -, -⟩
          · exact hdis
          · exact h.disjoint q q' r' r'' hr' hr'' hne
      seen := fun e he => by
        obtain ⟨q, r', hr', heq⟩ := h.seen e he
        exact ⟨q, r', (Function.update_of_ne (h.unflagged hnone hholder hr').1 ..).trans hr', heq⟩
      done := fun q r' hr' => by
        rcases hcases q r' hr' with ⟨rfl, rfl⟩ | ⟨hq, hr', -, hdis⟩
        · show Function.update s.done q false q = true ↔ _
          rw [Function.update_self]
          exact ⟨fun hfalse => Bool.noConfusion hfalse, fun hnot => absurd
            (List.mem_append_left _ (List.mem_append_right _ (List.mem_singleton_self _))) hnot⟩
        · show Function.update s.done p false q = true ↔ _
          rw [Function.update_of_ne hq, h.done q r' hr']
          simp only [List.mem_append, List.mem_singleton, Request.i0_ne hdis, or_false]
      info := fun q r' hr' hflag => by
        rcases hcases q r' hr' with ⟨rfl, rfl⟩ | ⟨hq, hr', -, hdis⟩
        · show (Function.update s.disk.info r'.i0 ⟨some r'.b, 0xff⟩ r'.i0).b = _
          rw [Function.update_self]
        · show (Function.update s.disk.info r.i0 ⟨some r.b, 0xff⟩ r'.i0).b = _
          rw [Function.update_of_ne (Request.i0_ne hdis)]
          exact h.info q r' hr' ((hlive q r' hr').1 hflag)
      status := fun j hj => by
        show (Function.update s.disk.info r.i0 ⟨some r.b, 0xff⟩ j).status = 0
        rw [Function.update_of_ne]
        · exact h.status j hj
        · rintro rfl
          exact hout (List.mem_append_right _ hj) }
  · refine (hf.free_iff i).trans ⟨fun hi => ⟨List.not_mem_nil, fun q r' hr' => ?_⟩, fun hi => ?_⟩
    · rcases hcases q r' hr' with ⟨rfl, rfl⟩ | ⟨-, hr', -, -⟩
      · exact fun hmem => hi.1 ((hmine i).2 hmem)
      · exact hi.2 q r' hr'
    · refine ⟨fun hmem => hi.2 p r hself ((hmine i).1 hmem), fun q r' hr' => hi.2 q r' ?_⟩
      exact (Function.update_of_ne (h.unflagged hnone hholder hr').1 ..).trans hr'

omit [DecidableEq P] in
theorem free_chain_succ {n : Nat} {i : Fin NUM} (h : s.disk.free i = false) :
    free_chain (n + 1) i s =
      if (s.disk.desc i).flags &&& VRING_DESC_F_NEXT ≠ 0 then
        free_chain n (s.disk.desc i).next.toNat (s.freed i)
      else .ok (s.freed i) := by
  have hindex : index (i : Nat) = .ok i := dif_pos i.isLt
  show (index (i : Nat)).bind _ = _
  rw [hindex]
  show (free_desc i s).bind _ = _
  rw [free_desc_ok h]
  rfl

omit [DecidableEq P] in
/-- The three descriptors of a request go back. -/
theorem Placed.free_chain {r : Request B} (h : Placed s p r) :
    free_chain NUM r.i0 s = .ok (((s.freed r.i0).freed r.i1).freed r.i2) := by
  obtain ⟨h01, h02, h12⟩ := Request.ne_of_nodup h.nodup
  rw [free_chain_succ (h.free _ r.mem0), h.desc0, if_pos (desc0_next r)]
  show Virtio.free_chain 7 (u16 r.i1).toNat _ = _
  rw [u16_toNat, free_chain_succ]
  · have hdesc : (s.freed r.i0).disk.desc r.i1 = r.desc1 :=
      (Function.update_of_ne h01.symm ..).trans h.desc1
    rw [hdesc, if_pos (desc1_next r)]
    show Virtio.free_chain 6 (u16 r.i2).toNat _ = _
    rw [u16_toNat, free_chain_succ]
    · have hdesc : ((s.freed r.i0).freed r.i1).disk.desc r.i2 = r.desc2 :=
        (Function.update_of_ne h12.symm ..).trans
          ((Function.update_of_ne h02.symm ..).trans h.desc2)
      rw [hdesc, if_neg (desc2_next r)]
    · exact (Function.update_of_ne h12.symm ..).trans
        ((Function.update_of_ne h02.symm ..).trans (h.free _ r.mem2))
  · exact (Function.update_of_ne h01.symm ..).trans (h.free _ r.mem1)

omit [DecidableEq P] in
theorem freed_free (r : Request B) (i : Fin NUM) :
    (((s.freed r.i0).freed r.i1).freed r.i2).disk.free i = true ↔
      s.disk.free i = true ∨ i ∈ r.idx := by
  show Function.update (Function.update (Function.update s.disk.free _ _) _ _) _ _ i = _ ↔ _
  simp only [Function.update_apply, Request.idx, List.mem_cons, List.not_mem_nil, or_false]
  split_ifs <;> simp [*]

omit [DecidableEq P] in
theorem freed_desc {r : Request B} {i : Fin NUM} (h : i ∉ r.idx) :
    (((s.freed r.i0).freed r.i1).freed r.i2).disk.desc i = s.disk.desc i := by
  have hne : i ≠ r.i0 ∧ i ≠ r.i1 ∧ i ≠ r.i2 := by
    simpa only [Request.idx, List.mem_cons, List.not_mem_nil, or_false, not_or] using h
  show Function.update (Function.update (Function.update s.disk.desc _ _) _ _) _ _ i = _
  rw [Function.update_of_ne hne.2.2, Function.update_of_ne hne.2.1, Function.update_of_ne hne.1]

/-- A request whose buffer the interrupt has seen to is done, and gives its
descriptors back. -/
theorem Wf.finish {r : Request B} (h : Wf s avail work used) (hf : FreeBut s [])
    (hr : s.requests p = some r) (hclear : s.disk.bdisk r.b = false) :
    ∃ s', finish p r.i0 s = .ok s' ∧ Wf s' avail work used ∧ FreeBut s' [] ∧
      s'.requests = Function.update s.requests p none ∧ s'.holder = s.holder ∧
      s'.disk.bdisk = s.disk.bdisk ∧ s'.vdisk_lock = s.vdisk_lock ∧
      ∀ i, s'.disk.free i = true ↔ s.disk.free i = true ∨ i ∈ r.idx := by
  have hp := h.placed p r hr
  have hdead : r.i0 ∉ avail ++ work ++ used := by
    rw [h.live_iff hr, hclear]
    exact Bool.false_ne_true
  have hcases : ∀ q r', Function.update s.requests p none q = some r' →
      q ≠ p ∧ s.requests q = some r' := by
    intro q r' hr'
    by_cases hq : q = p
    · subst hq
      rw [Function.update_self] at hr'
      cases hr'
    · rw [Function.update_of_ne hq] at hr'
      exact ⟨hq, hr'⟩
  have hother : ∀ q r', s.requests q = some r' → r'.i0 ≠ r.i0 →
      Function.update s.requests p none q = some r' := by
    intro q r' hr' hne
    rw [Function.update_of_ne]
    · exact hr'
    · rintro rfl
      exact hne (by rw [Option.some.inj (hr.symm.trans hr')])
  have hflagged : ∀ q r', s.requests q = some r' → s.disk.bdisk r'.b = true → r'.i0 ≠ r.i0 := by
    intro q r' hr' hflag heq
    exact hdead (heq ▸ (h.live_iff hr').2 hflag)
  have hp' : Placed { s with
      disk.info := Function.update s.disk.info r.i0 { s.disk.info r.i0 with b := none }
      requests := Function.update s.requests p none } p r := hp.congr rfl rfl rfl hp.holder
  refine ⟨_, hp'.free_chain, ?_, ⟨List.nodup_nil, fun _ hi => absurd hi List.not_mem_nil, fun i => ?_⟩,
    rfl, rfl, rfl, rfl, freed_free r⟩
  · exact {
      availRing := h.availRing
      usedRing := h.usedRing
      pending := h.pending
      nodup := h.nodup
      live := fun j => by
        rw [h.live j]
        constructor
        · rintro ⟨q, r', hr', heq, hflag⟩
          exact ⟨q, r', hother q r' hr' (hflagged q r' hr' hflag), heq, hflag⟩
        · rintro ⟨q, r', hr', heq, hflag⟩
          exact ⟨q, r', (hcases q r' hr').2, heq, hflag⟩
      flag := fun c hc => by
        obtain ⟨q, r', hr', rfl⟩ := h.flag c hc
        exact ⟨q, r', hother q r' hr' (hflagged q r' hr' hc), rfl⟩
      placed := fun q r' hr' => by
        obtain ⟨hq, hr'⟩ := hcases q r' hr'
        have hp' := h.placed q r' hr'
        have hdis := h.disjoint q p r' r hr' hr hq
        exact {
          nodup := hp'.nodup
          free := fun i hi => Bool.eq_false_iff.2 fun htrue => by
            rcases (freed_free r i).1 htrue with htrue | hmem
            · have hfree := hp'.free i hi
              rw [show s.disk.free i = true from htrue] at hfree
              cases hfree
            · exact hdis hi hmem
          desc0 := (freed_desc (hdis r'.mem0)).trans hp'.desc0
          desc1 := (freed_desc (hdis r'.mem1)).trans hp'.desc1
          desc2 := (freed_desc (hdis r'.mem2)).trans hp'.desc2
          header := hp'.header
          holder := hp'.holder }
      disjoint := fun q q' r' r'' hr' hr'' hne =>
        h.disjoint q q' r' r'' (hcases q r' hr').2 (hcases q' r'' hr'').2 hne
      seen := fun e he => by
        obtain ⟨q, r', hr', rfl⟩ := h.seen e he
        refine ⟨q, r', hother q r' hr' fun heq => hdead ?_, rfl⟩
        have hmem : u16 r'.i0 ∈ work.map u16 := by
          rw [← h.pending]
          exact List.mem_map_of_mem (f := Prod.fst) he
        obtain ⟨i, hi, hu⟩ := List.mem_map.1 hmem
        rw [← heq, ← u16_inj hu]
        exact List.mem_append_left _ (List.mem_append_right _ hi)
      done := fun q r' hr' => h.done q r' (hcases q r' hr').2
      info := fun q r' hr' hflag => by
        obtain ⟨hq, hr'⟩ := hcases q r' hr'
        show (Function.update s.disk.info r.i0 _ r'.i0).b = _
        rw [Function.update_of_ne (h.i0_ne hr' hr hq)]
        exact h.info q r' hr' hflag
      status := fun j hj => by
        show (Function.update s.disk.info r.i0 _ j).status = 0
        rw [Function.update_of_ne]
        · exact h.status j hj
        · rintro rfl
          exact hdead (List.mem_append_right _ hj) }
  · refine (freed_free r i).trans ⟨?_, fun hi => ?_⟩
    · rintro (hfree | hmem)
      · exact ⟨List.not_mem_nil, fun q r' hr' => ((hf.free_iff i).1 hfree).2 q r' (hcases q r' hr').2⟩
      · exact ⟨List.not_mem_nil, fun q r' hr' hi =>
          h.disjoint q p r' r (hcases q r' hr').2 hr (hcases q r' hr').1 hi hmem⟩
    · by_cases hmem : i ∈ r.idx
      · exact .inr hmem
      · refine .inl ((hf.free_iff i).2 ⟨List.not_mem_nil, fun q r' hr' => ?_⟩)
        by_cases hq : q = p
        · subst hq
          rw [← Option.some.inj (hr.symm.trans hr')]
          exact hmem
        · exact hi.2 q r' ((Function.update_of_ne hq ..).trans hr')

/-! ## Interrupts -/

omit [DecidableEq P] in
/-- One turn of the interrupt handler: it is done, or it clears the flag of
one buffer, whose request the device has completed. -/
theorem Wf.turn (h : Wf s avail work used) :
    ∃ more s', virtio_disk_intr_turn s = .ok (more, s') ∧
      (∃ used', Wf s' avail work used') ∧ s'.disk.free = s.disk.free ∧
      s'.requests = s.requests ∧ s'.holder = s.holder ∧ s'.vdisk_lock = s.vdisk_lock ∧
      (more = false → used = [] ∧ s' = s) ∧
      (more = true → ∃ p r, s.requests p = some r ∧ s.disk.bdisk r.b = true ∧
        r.i0 ∈ used ∧ s'.disk.bdisk = Function.update s.disk.bdisk r.b false) := by
  cases used with
  | nil =>
    have hempty := h.usedRing.eq_iff.2 rfl
    refine ⟨false, s, ?_, ⟨[], h⟩, rfl, rfl, rfl, rfl, fun _ => ⟨rfl, rfl⟩,
      fun hmore => Bool.noConfusion hmore⟩
    show (if s.disk.used_idx = s.disk.usedIdx then _ else _ : Except Fault _) = _
    rw [if_pos hempty]
    rfl
  | cons i used' =>
    obtain ⟨hhead, hrest⟩ := h.usedRing.pop fits_NUM
    have hne : s.disk.used_idx ≠ s.disk.usedIdx := fun heq => by
      have hnil := h.usedRing.eq_iff.1 heq
      cases hnil
    have hperm : (avail ++ work ++ i :: used').Perm (i :: (avail ++ work ++ used')) :=
      List.perm_middle
    obtain ⟨p, r, hr, rfl, hflag⟩ := (h.live i).1
      (hperm.mem_iff.2 (List.mem_cons_self ..))
    obtain ⟨hout, hnodup⟩ := List.nodup_cons.1 (hperm.nodup_iff.1 h.nodup)
    have hclear : ∀ q r', s.requests q = some r' → r'.i0 ≠ r.i0 →
        (Function.update s.disk.bdisk r.b false r'.b = true ↔ s.disk.bdisk r'.b = true) := by
      intro q r' hr' hi
      rw [Function.update_of_ne]
      refine h.b_ne hr' hr ?_
      rintro rfl
      exact hi (by rw [Option.some.inj (hr.symm.trans hr')])
    refine ⟨true, State.wakeup { s with
        disk.bdisk := Function.update s.disk.bdisk r.b false
        disk.used_idx := s.disk.used_idx + 1 } (.buf r.b), ?_, ⟨used', ?_⟩, rfl, rfl, rfl, rfl,
      fun hmore => Bool.noConfusion hmore,
      fun _ => ⟨p, r, hr, hflag, List.mem_cons_self .., rfl⟩⟩
    · show (if s.disk.used_idx = s.disk.usedIdx then _ else _ : Except Fault _) = _
      rw [if_neg hne]
      show (index (s.disk.usedRing (slot s.disk.used_idx)).toNat).bind _ = _
      rw [show s.disk.usedRing (slot s.disk.used_idx) = u32 r.i0 from hhead, index_u32]
      show (if (s.disk.info r.i0).status ≠ 0 then _ else _ : Except Fault _) = _
      rw [if_neg (not_not.2 (h.status _ (List.mem_cons_self ..)))]
      dsimp only
      rw [h.info p r hr hflag]
      rfl
    · exact {
        availRing := h.availRing
        usedRing := hrest
        pending := h.pending
        nodup := hnodup
        live := fun j => by
          constructor
          · intro hj
            have hji : j ≠ r.i0 := by
              rintro rfl
              exact hout hj
            obtain ⟨q, r', hr', rfl, hflag'⟩ :=
              (h.live j).1 (hperm.mem_iff.2 (List.mem_cons_of_mem _ hj))
            exact ⟨q, r', hr', rfl, (hclear q r' hr' hji).2 hflag'⟩
          · rintro ⟨q, r', hr', rfl, hflag'⟩
            have hflag' : Function.update s.disk.bdisk r.b false r'.b = true := hflag'
            have hji : r'.i0 ≠ r.i0 := by
              intro heq
              by_cases hq : q = p
              · subst hq
                rw [Option.some.inj (hr.symm.trans hr'), Function.update_self] at hflag'
                cases hflag'
              · exact h.i0_ne hr' hr hq heq
            have hmem := (h.live_iff hr').2 ((hclear q r' hr' hji).1 hflag')
            exact (List.mem_cons.1 (hperm.mem_iff.1 hmem)).resolve_left hji
        flag := fun c hc => by
          have hc : Function.update s.disk.bdisk r.b false c = true := hc
          by_cases hcb : c = r.b
          · rw [hcb, Function.update_self] at hc
            cases hc
          · rw [Function.update_of_ne hcb] at hc
            exact h.flag c hc
        placed := fun q r' hr' => (h.placed q r' hr').congr rfl rfl rfl (h.placed q r' hr').holder
        disjoint := h.disjoint
        seen := h.seen
        done := h.done
        info := fun q r' hr' hflag' => by
          refine h.info q r' hr' ?_
          have hflag' : Function.update s.disk.bdisk r.b false r'.b = true := hflag'
          by_cases hcb : r'.b = r.b
          · rw [hcb, Function.update_self] at hflag'
            cases hflag'
          · rw [Function.update_of_ne hcb] at hflag'
            exact hflag'
        status := fun j hj => h.status j (List.mem_cons_of_mem _ hj) }

end request

end Xv6.Virtio
