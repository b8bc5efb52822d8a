import Hvos.Data.LinkedList

/-!
# Data/ListRuns — a list that owns its elements is a sequence

`list_pop` and `list_remove_at` free what the element points to, so a list has to own it (`Owns`):
what is pushed is the null pointer or a block that its holder gives away.  Runs of `list_push`,
`list_pop` and `list_remove_at`, among `kmalloc`, `kfree` and stores of the holder, then are runs on
a sequence (`list_is_sequence`).

Two things are lost without that.  A block that is pushed twice is freed by the first removal,
serves as a node of the list, and is freed again by the second one (`pushed_twice`).  And the loop
of `list_remove_at` counts in 32 bits: from the place `2 ^ 32` on it walks off the end of the list
(`removeWalk_far`).
-/

namespace Hvos.Data

open Memory Bytes Blocks Prog Function

variable {s s' : Mem} {A : Set ℕ} {l p q v d k b c x i : ℕ} {ps ps' xs as cs us ws : List ℕ}

/-! ## Owning the elements -/

/-- **A list that owns its elements**: those that are not null are blocks in use, each held once,
and none of them is a block of the list. -/
structure Owns (s : Mem) (l : ℕ) (ps xs : List ℕ) : Prop extends IsList s l ps xs where
  given : ∀ x ∈ xs, x ≠ 0 → InUse s x 0
  apart : ∀ x ∈ xs, x ∉ l :: ps
  once : (xs.filter (· ≠ 0)).Nodup

theorem Owns.spares (h : Owns s l ps xs) (hsp : Spares A s s') (hA : ∀ q ∈ l :: ps, q ∉ A)
    (hA' : ∀ x ∈ xs, x ≠ 0 → x ∉ A) : Owns s' l ps xs where
  toIsList := h.toIsList.spares hsp hA
  given x hx hne := hsp.inUse (hA' x hx hne) (h.given x hx hne)
  apart := h.apart
  once := h.once

/-- An element that is not null is held in one place. -/
theorem Owns.ne_of_mem (h : Owns s l ps (us ++ x :: ws)) (hq : q ∈ us ++ ws) (hne : q ≠ 0) : q ≠ x := by
  rintro rfl
  have honce := h.once
  rw [List.filter_append, List.filter_cons_of_pos (by simpa using hne), List.nodup_middle,
    List.nodup_cons, ← List.filter_append] at honce
  exact honce.1 (List.mem_filter.2 ⟨hq, by simpa using hne⟩)

/-- **An element less**: what was written to are blocks of the list and that element. -/
theorem Owns.shrink (h : Owns s l ps (us ++ x :: ws)) (h' : IsList s' l ps' (us ++ ws))
    (hsub : ∀ p ∈ ps', p ∈ ps) (hsp : Spares A s s') (hA : ∀ q ∈ A, q ∈ l :: ps ∨ q = x) :
    Owns s' l ps' (us ++ ws) := by
  have hmem : ∀ y ∈ us ++ ws, y ∈ us ++ x :: ws := by
    intro y hy
    rcases List.mem_append.1 hy with hy | hy
    · exact List.mem_append_left _ hy
    · exact List.mem_append_right _ (List.mem_cons_of_mem x hy)
  refine ⟨h', fun y hy hne => ?_, fun y hy hin => ?_, ?_⟩
  · refine hsp.inUse (fun hyA => ?_) (h.given y (hmem y hy) hne)
    rcases hA y hyA with hin | rfl
    · exact h.apart y (hmem y hy) hin
    · exact h.ne_of_mem hy hne rfl
  · refine h.apart y (hmem y hy) ?_
    rcases List.mem_cons.1 hin with rfl | hin
    · exact List.mem_cons_self
    · exact List.mem_cons_of_mem l (hsub y hin)
  · refine h.once.sublist (List.Sublist.filter _ ?_)
    exact (List.Sublist.refl us).append (List.sublist_cons_self x ws)

/-! ## Freeing an element -/

/-- `kfree` of the data, if there is any. -/
theorem freeData_spec (hs : Healthy s) (hgiven : nodeData s p ≠ 0 → InUse s (nodeData s p) 0) :
    Healthy (freeData s p) ∧ Spares {nodeData s p} s (freeData s p) := by
  unfold freeData
  split_ifs with hne
  · obtain ⟨hs', hsp, -⟩ := hs.kfree (hgiven hne)
    exact ⟨hs', hsp⟩
  · exact ⟨hs, fun q n _ hu => ⟨hu, fun _ _ => rfl⟩⟩

/-- A second `kfree` of the data does nothing. -/
theorem kfree_freeData (hs : Healthy s) (hp : InUse s p 16) (hne : nodeData s p ≠ p)
    (hgiven : nodeData s p ≠ 0 → InUse s (nodeData s p) 0) :
    (freeData s p).kfree (nodeData (freeData s p) p) = freeData s p := by
  have hsame : nodeData (freeData s p) p = nodeData s p :=
    nodeData_spares (freeData_spec hs hgiven).2 (fun heq => hne heq.symm) hp
  rw [hsame]
  unfold freeData
  split_ifs with hzero
  · exact (hs.kfree (hgiven hzero)).2.2.2
  · rw [not_not.1 hzero]
    exact if_pos rfl

/-! ## `list_pop` -/

/-- **`list_pop`** takes the first element off. -/
theorem Owns.pop_cons (h : Owns s l (p :: ps) (x :: xs)) (hs : Healthy s) : Ensures (listPop l) s
      (fun _ s' => Owns s' l ps xs ∧ Healthy s' ∧ Spares {q | q ∈ l :: p :: ps ∨ q = x} s s')
      (fun _ => False) := by
  have hcount : listCount s l ≠ 0 := by simp [h.count]
  obtain ⟨hhead, hp0, -⟩ := h.chain.linked
  have hp : InUse s p 16 := h.chain.nodes p List.mem_cons_self
  have hx : nodeData s p = x := (List.cons.inj h.chain.data).1
  have hgiven : nodeData s p ≠ 0 → InUse s (nodeData s p) 0 :=
    fun hne => h.given _ (by simp [hx]) hne
  refine ensures_read_bind ?_
  rw [if_neg hcount]
  refine ensures_read_bind ?_
  rw [hhead, if_neg hp0]
  refine ensures_read_bind (ensures_modify_bind (ensures_modify_bind
    (ensures_modify_bind (ensures_modify ?_))))
  -- the element goes first, which leaves the list as it was
  obtain ⟨hs1, hsp1⟩ := freeData_spec hs hgiven
  rw [hx] at hsp1
  have hout : ∀ q ∈ l :: p :: ps, q ∉ ({x} : Set ℕ) := fun q hq heq =>
    h.apart x List.mem_cons_self (Set.mem_singleton_iff.1 heq ▸ hq)
  have h1 := h.toIsList.spares hsp1 hout
  have hp1 : InUse (freeData s p) p 16 := h1.chain.nodes p List.mem_cons_self
  have hnext : nodeNext (freeData s p) p = nodeNext s p := nodeNext_spares hsp1 (hout p (by simp)) hp
  have hhead1 : listHead (freeData s p) l = p := h1.chain.linked.1
  -- then the node
  obtain ⟨hs2, hsp2, -⟩ := hs1.kfree hp1
  have hnot := h.notMem
  rw [List.mem_cons, not_or] at hnot
  have hlp : l ∉ ({p} : Set ℕ) := hnot.1
  have hchain := h1.chain.tail.spares hsp2 fun q hq heq =>
    (List.nodup_cons.1 h1.chain.nodup).1 (Set.mem_singleton_iff.1 heq ▸ hq)
  have hl2 := hsp2.inUse hlp h1.header
  rw [hnext] at hchain
  obtain ⟨hs3, hsp3, hu3, -, hcount3⟩ := setHead_spec hs2 hl2 (hchain.lt hs2)
  obtain ⟨hlist, hs4, hsp4⟩ := (hchain.setHead hs2 hl2 hnot.2).setCount hs3 hu3 hnot.2
  have hless : wsub (listCount ((freeData s p).kfree p) l) 1 = ps.length := by
    have hlt := (h1.chain.length_lt hs1).2
    rw [listCount_spares hsp2 hlp h1.header, h1.count, List.length_cons]
    simp only [List.length_cons] at hlt
    exact wsub_of_le (by omega) (by omega)
  have hall : Spares {q | q ∈ l :: p :: ps ∨ q = x} s
      (setCount (setHead ((freeData s p).kfree p) l (nodeNext s p)) l ps.length) := by
    refine ((hsp1.mono ?_).trans (hsp2.mono ?_)).trans ((hsp3.mono ?_).trans (hsp4.mono ?_))
    · exact fun q hq => .inr hq
    · exact fun q hq => .inl (by simp [Set.mem_singleton_iff.1 hq])
    · exact fun q hq => .inl (by simp [Set.mem_singleton_iff.1 hq])
    · exact fun q hq => .inl (by simp [Set.mem_singleton_iff.1 hq])
  rw [hhead1, hcount3, hless]
  refine ⟨?_, hs4, hall⟩
  exact (show Owns s l (p :: ps) ([] ++ x :: xs) from h).shrink hlist
    (fun q hq => List.mem_cons_of_mem p hq) hall fun q hq => hq

/-- `list_pop` of any list. -/
theorem Owns.pop (h : Owns s l ps xs) (hs : Healthy s) : Ensures (listPop l) s
      (fun _ s' => ∃ ps', Owns s' l ps' xs.tail ∧ Healthy s' ∧ (∀ p ∈ ps', p ∈ ps) ∧
        Spares {q | q ∈ l :: ps ∨ q ∈ xs} s s')
      (fun _ => False) := by
  have hlen := h.length_eq
  cases ps with
  | nil =>
    obtain rfl : xs = [] := List.length_eq_zero_iff.1 hlen
    refine ensures_read_bind ?_
    rw [if_pos (show listCount s l = 0 from h.count)]
    exact ensures_pure ⟨[], h, hs, fun _ => id, fun q n _ hu => ⟨hu, fun _ _ => rfl⟩⟩
  | cons p ps =>
    obtain ⟨x, xs, rfl⟩ := List.exists_cons_of_length_eq_add_one hlen
    refine (h.pop_cons hs).imp fun _ s' h' => ?_
    obtain ⟨hown, hs', hsp⟩ := h'
    refine ⟨ps, hown, hs', fun q hq => List.mem_cons_of_mem p hq, hsp.mono fun q hq => ?_⟩
    exact hq.imp_right fun heq => List.mem_cons.2 (.inl heq)

/-! ## `list_remove_at` -/

/-- **Below `2 ^ 32` the loop of `list_remove_at` stops in front of its place.** -/
theorem removeWalk_eq (h : Linked (nodeNext s) p ps) (hi : i ≤ c) (hc : c < 2 ^ 32)
    (hlt : c < ps.length + i) (hk : ps.length < k) :
    removeWalk s c k i p = some (ps.getD (c - i) 0) := by
  induction ps generalizing p k i with
  | nil => simp at hlt; omega
  | cons x ps ih =>
    obtain ⟨rfl, hne, h⟩ := h
    obtain ⟨k, rfl⟩ : ∃ j, k = j + 1 := ⟨k - 1, by simp at hk; omega⟩
    simp only [List.length_cons] at hlt hk
    by_cases heq : i = c
    · subst heq
      rw [removeWalk, if_neg (by simp), Nat.sub_self]
      rfl
    · rw [removeWalk, if_pos ⟨by omega, hne⟩, Nat.mod_eq_of_lt (by omega),
        ih h (by omega) (by omega) (by omega), show c - i = c - (i + 1) + 1 by omega]
      rfl

/-- **From the place `2 ^ 32` on it walks off the end.** -/
theorem removeWalk_far (h : Linked (nodeNext s) p ps) (hc : 2 ^ 32 ≤ c) (hi : i < 2 ^ 32)
    (hk : ps.length < k) : removeWalk s c k i p = some 0 := by
  induction ps generalizing p k i with
  | nil =>
    obtain rfl : p = 0 := h
    obtain ⟨k, rfl⟩ : ∃ j, k = j + 1 := ⟨k - 1, by simp at hk; omega⟩
    rw [removeWalk, if_neg (by simp)]
  | cons x ps ih =>
    obtain ⟨rfl, hne, h⟩ := h
    obtain ⟨k, rfl⟩ : ∃ j, k = j + 1 := ⟨k - 1, by simp at hk; omega⟩
    rw [removeWalk, if_pos ⟨by omega, hne⟩]
    exact ih h (Nat.mod_lt _ (by decide)) (by simpa using hk)

/-- **A node unlinked behind `b`.** -/
theorem ChainFrom.unlink (h : ChainFrom s v (as ++ b :: c :: cs) xs) (hs : Healthy s) :
    ∃ us ws, xs = us ++ nodeData s c :: ws ∧ us.length = as.length + 1 ∧
      ChainFrom (setNext s b (nodeNext s c)) v (as ++ b :: cs) (us ++ ws) ∧
      Healthy (setNext s b (nodeNext s c)) ∧ Spares {b} s (setNext s b (nodeNext s c)) := by
  have hnodup := h.nodup
  have hb : InUse s b 16 := h.nodes b (by simp)
  obtain ⟨hs', hsp, hu, hbnext, hbdata⟩ := setNext_spec hs hb (nodeNext_lt s c)
  have hsub : (as ++ b :: cs).Sublist (as ++ b :: c :: cs) :=
    (List.Sublist.refl as).append (List.Sublist.cons_cons b (List.sublist_cons_self c cs))
  have hnodup' := hnodup.sublist hsub
  have hrest : ∀ q ∈ as ++ cs, q ∉ ({b} : Set ℕ) := by
    rintro q hq rfl
    rw [List.nodup_middle, List.nodup_cons] at hnodup'
    exact hnodup'.1 hq
  have hin : ∀ q ∈ as ++ cs, InUse s q 16 := fun q hq =>
    h.nodes q (hsub.subset (by
      rcases List.mem_append.1 hq with hq | hq
      · exact List.mem_append_left _ hq
      · exact List.mem_append_right _ (List.mem_cons_of_mem b hq)))
  have hdata : ∀ q ∈ as ++ b :: cs, nodeData (setNext s b (nodeNext s c)) q = nodeData s q := by
    intro q hq
    by_cases hqb : q = b
    · rw [hqb, hbdata]
    · have hq' : q ∈ as ++ cs := by simpa [hqb] using hq
      exact nodeData_spares hsp (hrest q hq') (hin q hq')
  refine ⟨(as ++ [b]).map (nodeData s), cs.map (nodeData s), by simp [← h.data], by simp,
    ⟨fun q hq => ?_, hnodup', ?_, ?_⟩, hs', hsp⟩
  · by_cases hqb : q = b
    · rw [hqb]
      exact hu
    · have hq' : q ∈ as ++ cs := by simpa [hqb] using hq
      exact hsp.inUse (hrest q hq') (hin q hq')
  · exact h.linked.unlink (fun q hq => nodeNext_spares hsp (hrest q hq) (hin q hq)) hbnext
  · rw [List.map_congr_left hdata]
    simp

section

variable (h : Owns s l (as ++ b :: c :: cs) xs)
include h

/-- The node `c` is unlinked behind `b`, and its data freed; the second `kfree` does nothing. -/
theorem Owns.freeBehind (hs : Healthy s) (hs1 : setNext s b (nodeNext s c) = s') :
    ∃ us ws, xs = us ++ nodeData s c :: ws ∧ us.length = as.length + 1 ∧
      (freeData s' c).kfree (nodeData (freeData s' c) c) = freeData s' c ∧
      ChainFrom (freeData s' c) (listHead (freeData s' c) l) (as ++ b :: cs) (us ++ ws) ∧
      Healthy (freeData s' c) ∧ InUse (freeData s' c) l 16 ∧
      listCount (freeData s' c) l = listCount s l ∧
      Spares {q | q = b ∨ q = nodeData s c} s (freeData s' c) := by
  have hc : InUse s c 16 := h.chain.nodes c (by simp)
  obtain ⟨us, ws, rfl, hlen, hchain, hs', hsp1⟩ := h.chain.unlink hs
  rw [hs1] at hchain hs' hsp1
  have hx : nodeData s c ∉ l :: (as ++ b :: c :: cs) := h.apart _ (by simp)
  have hnot := h.notMem
  have hnodup := h.chain.nodup.sublist (List.sublist_append_right as (b :: c :: cs))
  simp only [List.mem_append, List.mem_cons, not_or] at hx hnot
  have hcb : c ∉ ({b} : Set ℕ) := by
    rintro rfl
    exact (List.nodup_cons.1 hnodup).1 List.mem_cons_self
  have hl' : InUse s' l 16 := hsp1.inUse hnot.2.1 h.header
  have hdata : nodeData s' c = nodeData s c := nodeData_spares hsp1 hcb hc
  have hgiven : nodeData s' c ≠ 0 → InUse s' (nodeData s' c) 0 := by
    rw [hdata]
    exact fun hne => hsp1.inUse hx.2.2.1 (h.given _ (by simp) hne)
  have hagain := kfree_freeData hs' (hsp1.inUse hcb hc) (by rw [hdata]; exact hx.2.2.2.1) hgiven
  obtain ⟨hs2, hsp2⟩ := freeData_spec hs' hgiven
  rw [hdata] at hsp2
  have hlx : l ∉ ({nodeData s c} : Set ℕ) := fun heq => hx.1 heq.symm
  refine ⟨us, ws, rfl, hlen, hagain, ?_, hs2, hsp2.inUse hlx hl', ?_,
    (hsp1.mono fun q hq => .inl hq).trans (hsp2.mono fun q hq => .inr hq)⟩
  · rw [listHead_spares hsp2 hlx hl', listHead_spares hsp1 hnot.2.1 h.header]
    refine hchain.spares hsp2 fun q hq heq => ?_
    rw [Set.mem_singleton_iff.1 heq] at hq
    simp only [List.mem_append, List.mem_cons] at hq
    exact hq.elim hx.2.1 fun hq => hq.elim hx.2.2.1 hx.2.2.2.2
  · rw [listCount_spares hsp2 hlx hl', listCount_spares hsp1 hnot.2.1 h.header]

/-- The writes of `list_remove_at` once it stands at `b`: unlink the node `c` behind it, free its
data, and count one less. -/
theorem Owns.unlink (hs : Healthy s) (hs1 : setNext s b (nodeNext s c) = s') :
    ∃ t, setCount ((freeData s' c).kfree (nodeData (freeData s' c) c)) l
          (wsub (listCount ((freeData s' c).kfree (nodeData (freeData s' c) c)) l) 1) = t ∧
      Owns t l (as ++ b :: cs) (xs.eraseIdx (as.length + 1)) ∧ Healthy t ∧
      Spares {q | q ∈ l :: (as ++ b :: c :: cs) ∨ q ∈ xs} s t := by
  obtain ⟨us, ws, rfl, hlen, hagain, hchain, hs2, hl2, hcount, hsp2⟩ := h.freeBehind hs hs1
  rw [hagain]
  have hsub : ∀ q ∈ as ++ b :: cs, q ∈ as ++ b :: c :: cs := fun q hq => by
    simp only [List.mem_append, List.mem_cons] at hq ⊢
    exact hq.imp_right fun hq => hq.imp_right .inr
  have hless : wsub (listCount (freeData s' c) l) 1 = (as ++ b :: cs).length := by
    have hlt := (h.chain.length_lt hs).2
    rw [hcount, h.count]
    simp only [List.length_append, List.length_cons] at hlt ⊢
    exact wsub_of_le (by omega) (by omega)
  obtain ⟨hlist, hs3, hsp3⟩ := hchain.setCount hs2 hl2 fun hl => h.notMem (hsub l hl)
  rw [hless]
  have herase : (us ++ nodeData s c :: ws).eraseIdx (as.length + 1) = us ++ ws := by
    rw [← hlen, List.eraseIdx_append_of_length_le le_rfl, Nat.sub_self, List.eraseIdx_zero,
      List.tail_cons]
  have hall : Spares {q | q ∈ l :: (as ++ b :: c :: cs) ∨ q = nodeData s c} s
      (setCount (freeData s' c) l (as ++ b :: cs).length) := by
    refine (hsp2.mono fun q hq => hq.imp_left fun heq => ?_).trans (hsp3.mono fun q hq => .inl ?_)
    · simp [heq]
    · simp [Set.mem_singleton_iff.1 hq]
  refine ⟨_, rfl, ?_, hs3, hall.mono fun q hq => hq.imp_right fun heq => by simp [heq]⟩
  rw [herase]
  exact h.shrink hlist hsub hall fun q hq => hq

/-- **`list_remove_at` behind the first element** takes the element in its place out. -/
theorem Owns.removeAfter (hs : Healthy s) (hi : as.length + 1 = i) (hsmall : i < 2 ^ 32) :
    Ensures (listRemoveAt l i) s
      (fun _ s' => Owns s' l (as ++ b :: cs) (xs.eraseIdx i) ∧ Healthy s' ∧
        Spares {q | q ∈ l :: (as ++ b :: c :: cs) ∨ q ∈ xs} s s')
      (fun _ => False) := by
  have hcount : listCount s l ≠ 0 := by simp [h.count]
  have hzero : i ≠ 0 := by omega
  have hb : InUse s b 16 := h.chain.nodes b (by simp)
  have hc : InUse s c 16 := h.chain.nodes c (by simp)
  have hwalk : removeWalk s i (blockLimit s) 1 (listHead s l) = some b := by
    rw [removeWalk_eq h.chain.linked (by omega) hsmall (by simp; omega) (h.chain.length_lt hs).1,
      ← hi]
    simp
  have hlink : nodeNext s b = c := h.chain.linked.drop.2.2.1
  refine ensures_read_bind ?_
  rw [if_neg hcount, if_neg hzero]
  refine ensures_read_bind ?_
  rw [hwalk, Option.getD_some, if_neg hb.ne_zero]
  refine ensures_read_bind ?_
  rw [hlink, if_neg hc.ne_zero]
  refine ensures_modify_bind (ensures_modify_bind (ensures_modify_bind
    (ensures_modify ?_)))
  obtain ⟨t, ht, hall⟩ := h.unlink hs rfl
  rw [ht, ← hi]
  exact hall

end

/-- **`list_remove_at`** below `2 ^ 32`. -/
theorem Owns.removeAt (h : Owns s l ps xs) (hs : Healthy s) (hi : i < xs.length)
    (hsmall : i < 2 ^ 32) : Ensures (listRemoveAt l i) s
      (fun _ s' => ∃ ps', Owns s' l ps' (xs.eraseIdx i) ∧ Healthy s' ∧ (∀ p ∈ ps', p ∈ ps) ∧
        Spares {q | q ∈ l :: ps ∨ q ∈ xs} s s')
      (fun _ => False) := by
  have hcount : listCount s l ≠ 0 := by
    rw [h.count_eq]
    omega
  by_cases hzero : i = 0
  · refine ensures_read_bind ?_
    rw [if_neg hcount, if_pos hzero, hzero, List.eraseIdx_zero]
    exact h.pop hs
  · have hlt : i - 1 < ps.length := by
      rw [← h.length_eq]
      omega
    obtain ⟨as, b, rest, rfl, hlen⟩ := exists_split hlt
    have hrest : rest ≠ [] := by
      rintro rfl
      rw [h.length_eq] at hi
      simp at hi
      omega
    obtain ⟨c, cs, rfl⟩ := List.exists_cons_of_ne_nil hrest
    refine (h.removeAfter hs (by omega) hsmall).imp fun _ s' h' => ?_
    refine ⟨as ++ b :: cs, h'.1, h'.2.1, fun q hq => ?_, h'.2.2⟩
    simp only [List.mem_append, List.mem_cons] at hq ⊢
    exact hq.imp_right fun hq => hq.imp_right .inr

/-! ## `list_push` -/

/-- **`list_push` of what the list may own.** -/
theorem Owns.push (h : Owns s l ps xs) (hs : Healthy s)
    (hd : d ≠ 0 → InUse s d 0 ∧ d ∉ l :: ps ∧ d ∉ xs) : Ensures (listPush l d) s
      (fun _ s' => ∃ p, Owns s' l (p :: ps) (d :: xs) ∧ Healthy s' ∧ Spares {l} s s' ∧
        ∀ m, ¬InUse s p m)
      (fun s' => s'.pmm.pmmAlloc = none) := by
  have hlt : d < 2 ^ 64 := by
    by_cases hzero : d = 0
    · rw [hzero]
      decide
    · exact (hd hzero).1.lt hs
  refine (h.toIsList.push hs hlt).imp fun _ s' h' => ?_
  obtain ⟨p, hlist, hs', hsp, hfresh⟩ := h'
  have hnew : ∀ x, x ≠ 0 → InUse s x 0 → x ≠ p := fun x _ hx heq => hfresh 0 (heq ▸ hx)
  have hp0 : p ≠ 0 := (hlist.chain.nodes p List.mem_cons_self).ne_zero
  have hl0 : l ≠ 0 := h.header.ne_zero
  have hps0 : ∀ q ∈ ps, q ≠ 0 := fun q hq => (h.chain.nodes q hq).ne_zero
  refine ⟨p, ⟨hlist, fun x hx hne => ?_, fun x hx => ?_, ?_⟩, hs', hsp, hfresh⟩
  · rcases List.mem_cons.1 hx with rfl | hx
    · obtain ⟨hu, hout, -⟩ := hd hne
      exact hsp.inUse (fun heq => hout (List.mem_cons.2 (.inl heq))) hu
    · exact hsp.inUse (fun heq => h.apart x hx (List.mem_cons.2 (.inl heq))) (h.given x hx hne)
  · have hcase : x = 0 ∨ (x ≠ 0 ∧ InUse s x 0 ∧ x ∉ l :: ps) := by
      by_cases hzero : x = 0
      · exact .inl hzero
      · rcases List.mem_cons.1 hx with rfl | hx
        · exact .inr ⟨hzero, (hd hzero).1, (hd hzero).2.1⟩
        · exact .inr ⟨hzero, h.given x hx hzero, h.apart x hx⟩
    simp only [List.mem_cons, not_or] at hcase ⊢
    rcases hcase with rfl | ⟨hzero, hu, hout⟩
    · exact ⟨hl0.symm, hp0.symm, fun hmem => hps0 0 hmem rfl⟩
    · exact ⟨hout.1, hnew x hzero hu, hout.2⟩
  · by_cases hzero : d = 0
    · rw [List.filter_cons_of_neg (by simpa using hzero)]
      exact h.once
    · rw [List.filter_cons_of_pos (by simpa using hzero)]
      exact List.nodup_cons.2 ⟨fun hmem => (hd hzero).2.2 (List.mem_filter.1 hmem).1, h.once⟩

/-! ## Runs -/

/-- The memory, and the blocks in the hands of the one who uses the list. -/
structure ListState where
  mem : Mem
  mine : List ℕ

/-- What happens: the calls that change the list, and what its user does with their own blocks. -/
inductive ListEvent
  | push (data : ℕ)
  | pop
  | removeAt (i : ℕ)
  | kmalloc (size : ℕ)
  | kfree (ptr : ℕ)
  | store (ptr k : ℕ) (v : UInt8)

/-- The outcome of a call, with the blocks left in the user's hands. -/
def ListState.after {α : Type} (mine : α → List ℕ) : Outcome Mem α → Option ListState
  | .done a s => some ⟨s, mine a⟩
  | .halt _ => none

/-- One event.  What is pushed leaves the user's hands.  `list_remove_at` is called for a place
below the count; the user asks `kmalloc` for at most half the address space, and frees and writes to
what is in their hands. -/
def ListState.step (list : ℕ) (e : ListEvent) (st : ListState) : Option ListState :=
  match e with
  | .push data => after (fun _ => st.mine.erase data) (listPush list data st.mem)
  | .pop => after (fun _ => st.mine) (listPop list st.mem)
  | .removeAt i =>
    if i < listCount st.mem list then after (fun _ => st.mine) (listRemoveAt list i st.mem) else none
  | .kmalloc size =>
    if 0 < size ∧ size ≤ 2 ^ 63 then after (fun p => p :: st.mine) (Memory.kmalloc size st.mem)
    else none
  | .kfree ptr =>
    if ptr ∈ st.mine then some ⟨st.mem.kfree ptr, st.mine.erase ptr⟩ else none
  | .store ptr k v =>
    if ptr ∈ st.mine ∧ k < st.mem.sizeAt (ptr - headerSize) then
      some ⟨{ st.mem with heapBytes := update st.mem.heapBytes (ptr + k) v }, st.mine⟩
    else none

/-- **What an event does to the sequence**: push is cons, pop is tail. -/
def ListEvent.apply (xs : List ℕ) : ListEvent → List ℕ
  | .push data => data :: xs
  | .pop => xs.tail
  | .removeAt i => xs.eraseIdx i
  | _ => xs

/-- The sequence after a run. -/
def elements (es : List ListEvent) : List ℕ := es.foldl ListEvent.apply []

/-- **What is pushed is the null pointer or in the user's hands; what is removed is in a place below
`2 ^ 32`.** -/
def Proper (st : ListState) (e : ListEvent) (_ : ListState) : Prop :=
  match e with
  | .push data => data = 0 ∨ data ∈ st.mine
  | .removeAt i => i < 2 ^ 32
  | _ => True

theorem ListState.after_eq_some {α : Type} {mine : α → List ℕ} {o : Outcome Mem α} {st : ListState} :
    after mine o = some st ↔ ∃ a, o = .done a st.mem ∧ st.mine = mine a := by
  cases o with
  | halt s => simp [after]
  | done a s =>
    obtain ⟨mem, held⟩ := st
    simp only [after, Option.some.injEq, ListState.mk.injEq, Outcome.done.injEq]
    constructor
    · rintro ⟨rfl, rfl⟩
      exact ⟨a, ⟨rfl, rfl⟩, rfl⟩
    · rintro ⟨a', ⟨rfl, rfl⟩, rfl⟩
      exact ⟨rfl, rfl⟩

/-- **Who holds what**: the list `l` owns `xs`, and the blocks in the user's hands are others. -/
structure Tenure (l : ℕ) (ps xs : List ℕ) (st : ListState) : Prop where
  healthy : Healthy st.mem
  owns : Owns st.mem l ps xs
  inUse : ∀ q ∈ st.mine, InUse st.mem q 0
  apart : ∀ q ∈ st.mine, q ∉ l :: ps ∧ q ∉ xs
  nodup : st.mine.Nodup

namespace Tenure

variable {st st' : ListState}

section

variable (h : Tenure l ps xs st)
include h

/-- A block that was not in use is nobody's. -/
theorem fresh (hp : ∀ m, ¬InUse st.mem p m) (hp0 : p ≠ 0) : p ∉ st.mine ∧ p ∉ l :: ps ∧ p ∉ xs := by
  refine ⟨fun hmem => hp 0 (h.inUse p hmem), fun hmem => ?_, fun hmem => ?_⟩
  · rcases List.mem_cons.1 hmem with rfl | hmem
    · exact hp 16 h.owns.header
    · exact hp 16 (h.owns.chain.nodes p hmem)
  · exact hp 0 (h.owns.given p hmem hp0)

/-- Writes to what is not the list's leave it alone. -/
theorem keep (hsp : Spares A st.mem s') (hA : ∀ q ∈ A, q ∉ l :: ps ∧ q ∉ xs) : Owns s' l ps xs :=
  h.owns.spares hsp (fun q hq hqA => (hA q hqA).1 hq) fun x hx _ hxA => (hA x hxA).2 hx

/-- **`list_push`.** -/
theorem push (he : ListState.step l (.push d) st = some st') (hd : d = 0 ∨ d ∈ st.mine) :
    ∃ ps', Tenure l ps' (d :: xs) st' := by
  obtain ⟨u, hrun, hmine⟩ := ListState.after_eq_some.1 he
  have hgive : d ≠ 0 → InUse st.mem d 0 ∧ d ∉ l :: ps ∧ d ∉ xs := fun hne =>
    ⟨h.inUse d (hd.resolve_left hne), h.apart d (hd.resolve_left hne)⟩
  obtain ⟨p, hown, hs', hsp, hfresh⟩ := (h.owns.push h.healthy hgive).apply hrun
  have hp0 : p ≠ 0 := (hown.chain.nodes p List.mem_cons_self).ne_zero
  have hp := h.fresh hfresh hp0
  have hold : ∀ q ∈ st'.mine, q ≠ d ∧ q ∈ st.mine := fun q hq => by
    rw [hmine] at hq
    exact h.nodup.mem_erase_iff.1 hq
  refine ⟨p :: ps, hs', hown, fun q hq => ?_, fun q hq => ?_, ?_⟩
  · have hq' := (hold q hq).2
    exact hsp.inUse (fun heq => (h.apart q hq').1 (List.mem_cons.2 (.inl heq))) (h.inUse q hq')
  · obtain ⟨hne, hq'⟩ := hold q hq
    have hout := h.apart q hq'
    simp only [List.mem_cons, not_or] at hout ⊢
    exact ⟨⟨hout.1.1, fun heq => hp.1 (heq ▸ hq'), hout.1.2⟩, hne, hout.2⟩
  · rw [hmine]
    exact h.nodup.erase d

/-- An element less. -/
theorem less {ys : List ℕ} (hown : Owns st'.mem l ps' ys) (hs : Healthy st'.mem)
    (hps : ∀ p ∈ ps', p ∈ ps) (hys : ∀ y ∈ ys, y ∈ xs)
    (hsp : Spares {q | q ∈ l :: ps ∨ q ∈ xs} st.mem st'.mem) (hmine : st'.mine = st.mine) :
    Tenure l ps' ys st' := by
  refine ⟨hs, hown, fun q hq => ?_, fun q hq => ?_, hmine ▸ h.nodup⟩
  · rw [hmine] at hq
    exact hsp.inUse (fun hmem => hmem.elim (h.apart q hq).1 (h.apart q hq).2) (h.inUse q hq)
  · rw [hmine] at hq
    have hout := h.apart q hq
    simp only [List.mem_cons, not_or] at hout ⊢
    exact ⟨⟨hout.1.1, fun hmem => hout.1.2 (hps q hmem)⟩, fun hmem => hout.2 (hys q hmem)⟩

/-- **`list_pop`.** -/
theorem pop (he : ListState.step l .pop st = some st') : ∃ ps', Tenure l ps' xs.tail st' := by
  obtain ⟨u, hrun, hmine⟩ := ListState.after_eq_some.1 he
  obtain ⟨ps', hown, hs', hps, hsp⟩ := (h.owns.pop h.healthy).apply hrun
  exact ⟨ps', h.less hown hs' hps (fun y hy => List.mem_of_mem_tail hy) hsp hmine⟩

/-- **`list_remove_at`.** -/
theorem removeAt (he : ListState.step l (.removeAt i) st = some st') (hi : i < 2 ^ 32) :
    ∃ ps', Tenure l ps' (xs.eraseIdx i) st' := by
  simp only [ListState.step] at he
  split_ifs at he with hlt
  rw [h.owns.count_eq] at hlt
  obtain ⟨u, hrun, hmine⟩ := ListState.after_eq_some.1 he
  obtain ⟨ps', hown, hs', hps, hsp⟩ := (h.owns.removeAt h.healthy hlt hi).apply hrun
  exact ⟨ps', h.less hown hs' hps (fun y hy => List.mem_of_mem_eraseIdx hy) hsp hmine⟩

/-- A block more in the user's hands. -/
theorem kmalloc (he : ListState.step l (.kmalloc k) st = some st') : Tenure l ps xs st' := by
  simp only [ListState.step] at he
  split_ifs at he with hk
  obtain ⟨p, hrun, hmine⟩ := ListState.after_eq_some.1 he
  have hp : Obtained st.mem st'.mem p k := (h.healthy.kmalloc hk.1 (by omega)).apply hrun
  have hfresh := h.fresh hp.fresh hp.block.ne_zero
  refine ⟨hp.healthy, h.keep hp.spares fun q hq => hq.elim, fun q hq => ?_, fun q hq => ?_,
    ?_⟩
  · rw [hmine] at hq
    rcases List.mem_cons.1 hq with rfl | hq
    · exact hp.block.mono (Nat.zero_le _)
    · exact hp.spares.inUse (Set.notMem_empty q) (h.inUse q hq)
  · rw [hmine] at hq
    rcases List.mem_cons.1 hq with rfl | hq
    · exact hfresh.2
    · exact h.apart q hq
  · rw [hmine]
    exact List.nodup_cons.2 ⟨hfresh.1, h.nodup⟩

/-- A block less. -/
theorem kfree (he : ListState.step l (.kfree p) st = some st') : Tenure l ps xs st' := by
  simp only [ListState.step] at he
  split_ifs at he with hp
  cases he
  obtain ⟨hs', hsp, -⟩ := h.healthy.kfree (h.inUse p hp)
  refine ⟨hs', h.keep hsp fun q hq => Set.mem_singleton_iff.1 hq ▸ h.apart p hp, fun q hq => ?_,
    fun q hq => h.apart q (List.mem_of_mem_erase hq), h.nodup.erase p⟩
  obtain ⟨hne, hq⟩ := h.nodup.mem_erase_iff.1 hq
  exact hsp.inUse hne (h.inUse q hq)

/-- A store to one. -/
theorem store {y : UInt8} (he : ListState.step l (.store p k y) st = some st') :
    Tenure l ps xs st' := by
  simp only [ListState.step] at he
  split_ifs at he with hp
  cases he
  have hu : InUse st.mem p (k + 1) := by
    obtain ⟨hs, c, htiles, hc, rfl, -, hlive⟩ := h.inUse p hp.1
    rw [Nat.add_sub_cancel] at hp
    exact ⟨hs, c, htiles, hc, rfl, hp.2, hlive⟩
  have honly : HeapOnly st.mem
      { st.mem with heapBytes := update st.mem.heapBytes (p + k) y } := ⟨rfl, rfl, rfl, rfl⟩
  obtain ⟨hs', hsp, hu'⟩ := h.healthy.within hu honly rfl
    fun x hx => update_of_ne (by omega) _ _
  refine ⟨hs', h.keep hsp fun q hq => Set.mem_singleton_iff.1 hq ▸ h.apart p hp.1, fun q hq => ?_,
    h.apart, h.nodup⟩
  by_cases hqp : q = p
  · rw [hqp]
    exact hu'.mono (Nat.zero_le _)
  · exact hsp.inUse hqp (h.inUse q hq)

/-- **One event.** -/
theorem step {e : ListEvent} (he : ListState.step l e st = some st') (hproper : Proper st e st') :
    ∃ ps', Tenure l ps' (e.apply xs) st' := by
  cases e with
  | push d => exact h.push he hproper
  | pop => exact h.pop he
  | removeAt i => exact h.removeAt he hproper
  | kmalloc k => exact ⟨ps, h.kmalloc he⟩
  | kfree p => exact ⟨ps, h.kfree he⟩
  | store p k y => exact ⟨ps, h.store he⟩

end

variable {es : List ListEvent}

/-- **A run**, event by event on the sequence. -/
theorem run (h : Tenure l [] [] st) (hrun : Run (ListState.step l) st es st')
    (hproper : Run.Each (ListState.step l) Proper st es) :
    ∃ ps', Tenure l ps' (elements es) st' := by
  induction hrun with
  | nil => exact ⟨[], h⟩
  | snoc e hrun he ih =>
    rw [Run.each_snoc hrun he] at hproper
    obtain ⟨ps', h'⟩ := ih hproper.1
    rw [elements, List.foldl_append]
    exact h'.step he hproper.2

end Tenure

/-- **The linked list is a sequence.**  `init_list` returns an empty list in a new block.  After it
and any proper run, the chain from the head has `count` nodes and holds the sequence the events
make; `list_get_at` and `get_first_match` read it; and the calls return, `init_list` and `list_push`
unless a frame is lacking. -/
theorem list_is_sequence {s0 s1 : Mem} {st : ListState} {es : List ListEvent} (hs0 : Healthy s0)
    (hinit : initList s0 = .done l s1) (hrun : Run (ListState.step l) ⟨s1, []⟩ es st)
    (hproper : Run.Each (ListState.step l) Proper ⟨s1, []⟩ es) :
    Ensures initList s0 (fun l' s' => IsList s' l' [] [] ∧ Obtained s0 s' l' 16)
        (fun s' => s'.pmm.pmmAlloc = none) ∧
      (∃ ps, ps.length = listCount st.mem l ∧ ps.Nodup ∧
        Linked (nodeNext st.mem) (listHead st.mem l) ps ∧ ps.map (nodeData st.mem) = elements es) ∧
      (∀ i, listGetAt st.mem l i = (elements es).getD i 0) ∧
      (∀ callback args, getFirstMatch st.mem l (some callback) args =
        some (((elements es).find? fun x => callback st.mem x args ≠ 0).getD 0)) ∧
      Ensures (listPop l) st.mem (fun _ _ => True) (fun _ => False) ∧
      (∀ i < listCount st.mem l, i < 2 ^ 32 →
        Ensures (listRemoveAt l i) st.mem (fun _ _ => True) (fun _ => False)) ∧
      ∀ d, d = 0 ∨ d ∈ st.mine →
        Ensures (listPush l d) st.mem (fun _ _ => True) (fun s' => s'.pmm.pmmAlloc = none) := by
  obtain ⟨hlist, hl⟩ := (initList_spec hs0).apply hinit
  have hstart : Tenure l [] [] ⟨s1, []⟩ :=
    ⟨hl.healthy, ⟨hlist, by simp, by simp, List.nodup_nil⟩, by simp, by simp, List.nodup_nil⟩
  obtain ⟨ps, h⟩ := hstart.run hrun hproper
  have hown := h.owns
  refine ⟨initList_spec hs0,
    ⟨ps, hown.count.symm, hown.chain.nodup, hown.chain.linked, hown.chain.data⟩, hown.getAt,
    hown.firstMatch h.healthy, (hown.pop h.healthy).imp fun _ _ _ => trivial,
    fun i hi hsmall => ?_, fun d hd => ?_⟩
  · rw [hown.count_eq] at hi
    exact (hown.removeAt h.healthy hi hsmall).imp fun _ _ _ => trivial
  · refine (hown.push h.healthy fun hne => ?_).imp fun _ _ _ => trivial
    exact ⟨h.inUse d (hd.resolve_left hne), h.apart d (hd.resolve_left hne)⟩

/-! ## Two runs on a heap of one page -/

instance decidableProper (st : ListState) (e : ListEvent) (st' : ListState) :
    Decidable (Proper st e st') :=
  match e with
  | .push _ => inferInstanceAs (Decidable (_ ∨ _))
  | .removeAt _ => inferInstanceAs (Decidable (_ < _))
  | .pop | .kmalloc _ | .kfree _ | .store .. => inferInstanceAs (Decidable True)

/-- The events `es` on a new list, as a computation. -/
def listAfter (boot : Mem) (es : List ListEvent) : Option (ℕ × ListState) :=
  match (do heapInit; initList : Prog Mem ℕ) boot with
  | .done l s => (Run.exec (ListState.step l) es ⟨s, []⟩).map (l, ·)
  | .halt _ => none

/-- All of these events are proper. -/
def properAfter (boot : Mem) (es : List ListEvent) : Bool :=
  match (do heapInit; initList : Prog Mem ℕ) boot with
  | .done l s => Run.check (ListState.step l) (fun t e => decide (Proper t e t)) es ⟨s, []⟩
  | .halt _ => false

theorem each_of_properAfter {boot s0 s1 : Mem} (h : properAfter boot es = true)
    (hinit : heapInit boot = .done () s0) (hlist : initList s0 = .done l s1) :
    Run.Each (ListState.step l) Proper ⟨s1, []⟩ es := by
  have hrun : (do heapInit; initList : Prog Mem ℕ) boot = .done l s1 := by
    rw [bind_apply, hinit]
    exact hlist
  unfold properAfter at h
  rw [hrun] at h
  intro es1 e es2 t t' heq ht he
  exact of_decide_eq_true (Run.each_of_check h es1 e es2 t t' heq ht he)

theorem run_of_listAfter {boot : Mem} {st : ListState} (h : listAfter boot es = some (l, st)) :
    ∃ s0 s1, heapInit boot = .done () s0 ∧ initList s0 = .done l s1 ∧
      Run (ListState.step l) ⟨s1, []⟩ es st := by
  unfold listAfter at h
  cases hrun : (do heapInit; initList : Prog Mem ℕ) boot with
  | halt s =>
    rw [hrun] at h
    cases h
  | done l' s =>
    rw [hrun] at h
    obtain ⟨st', hexec, heq⟩ := Option.map_eq_some_iff.1 h
    obtain ⟨rfl, rfl⟩ := Prod.mk.inj heq
    obtain ⟨u, s0, hinit, hlist⟩ := done_of_bind hrun
    exact ⟨s0, s, hinit, hlist, Run.of_exec hexec⟩

/-- A block and the null pointer are pushed, and the block is removed again. -/
def pushedOnce : List ListEvent :=
  [.kmalloc 16, .push (kernelHeapStart + 64), .push 0, .removeAt 1]

theorem list_is_sequence_pushedOnce :
    ∃ l st, listAfter sixFrames pushedOnce = some (l, st) ∧ listCount st.mem l = 1 ∧
      ∃ ps, ps.length = listCount st.mem l ∧
        Linked (nodeNext st.mem) (listHead st.mem l) ps ∧ ps.map (nodeData st.mem) = [0] := by
  obtain ⟨⟨l, st⟩, hst⟩ : ∃ r, listAfter sixFrames pushedOnce = some r :=
    Option.isSome_iff_exists.1 (by decide +kernel)
  obtain ⟨s0, s1, hinit, hlist, hrun⟩ := run_of_listAfter hst
  have hs0 : Healthy s0 := (heapInit_healthy (by decide +kernel)).apply hinit
  have hproper : Run.Each (ListState.step l) Proper ⟨s1, []⟩ pushedOnce :=
    each_of_properAfter (by decide +kernel) hinit hlist
  obtain ⟨-, ⟨ps, hcount, -, hlinked, hdata⟩, -⟩ := list_is_sequence hs0 hlist hrun hproper
  have hlen := congrArg List.length hdata
  rw [List.length_map, hcount] at hlen
  exact ⟨l, st, hst, hlen, ps, hcount, hlinked, hdata⟩

/-- **The same block pushed twice**: freed with the first of the two, it becomes the node of a new
element, and is freed with the second. -/
def pushedTwice : List ListEvent :=
  [.kmalloc 16, .push (kernelHeapStart + 64), .push (kernelHeapStart + 64), .pop, .push 0, .push 0,
    .removeAt 2, .push 0]

/-- A node that follows itself is on no chain that ends. -/
theorem not_linked_self {next : ℕ → ℕ} (hne : p ≠ 0) (hp : next p = p) : ¬Linked next p ps := by
  intro h
  induction ps with
  | nil => exact hne h
  | cons x ps ih =>
    obtain ⟨rfl, -, h⟩ := h
    rw [hp] at h
    exact ih h

/-- **The chain of such a list has no end**: its count is 3, and its first node follows itself. -/
theorem pushed_twice : ∃ s0 s1 l st, heapInit sixFrames = .done () s0 ∧ initList s0 = .done l s1 ∧
      Run (ListState.step l) ⟨s1, []⟩ pushedTwice st ∧ listCount st.mem l = 3 ∧
      ¬∃ ps, Linked (nodeNext st.mem) (listHead st.mem l) ps := by
  have hcall : (listAfter sixFrames pushedTwice).map (fun r => (listCount r.2.mem r.1,
      decide (listHead r.2.mem r.1 ≠ 0 ∧
        nodeNext r.2.mem (listHead r.2.mem r.1) = listHead r.2.mem r.1))) = some (3, true) := by
    decide +kernel
  obtain ⟨⟨l, st⟩, hst, heq⟩ := Option.map_eq_some_iff.1 hcall
  obtain ⟨hcount, hself⟩ := Prod.mk.inj heq
  obtain ⟨s0, s1, hinit, hlist, hrun⟩ := run_of_listAfter hst
  obtain ⟨hne, hnext⟩ := of_decide_eq_true hself
  refine ⟨s0, s1, l, st, hinit, hlist, hrun, hcount, ?_⟩
  rintro ⟨ps, hlinked⟩
  exact not_linked_self hne hnext hlinked

end Hvos.Data
