import Hvos.Memory.Paging

/-!
# Memory/MapPage — what `map_page` does to tables under a labelling

`map_page` is three rounds of "make the next table if it is missing", then one last-level write.
Each round either changes nothing or grafts an empty frame; `Grown` collects what any number of
grafts leave true, and `mapPage_tabled` is the specification everything about address spaces is
proved from.
-/

namespace Hvos.Memory

open Radix Prog Function

variable {L : Type} {S : Scheme L (Fin 512)} {s s' s'' : Mem} {lab lab' lab'' : ℕ → Option L}

/-! ## Labelled tables -/

/-- A labelling of the tables in memory: entries lead where the labels say, and every labelled frame
is marked used. -/
structure Typed (S : Scheme L (Fin 512)) (s : Mem) (lab : ℕ → Option L) : Prop where
  labelled : Labelled S s.next lab
  used : ∀ f l, lab f = some l → s.pmm.bitmapTest f = true

variable {l lr lx : L} {f g root v : ℕ}

theorem Typed.not_free (hT : Typed S s lab) (hf : lab f = some l) :
    ¬s.pmm.Free f := fun hfree => by
  have hset := hT.used f l hf
  rw [hfree.2.2] at hset
  cases hset

/-- A frame `pmm_alloc` returns carries no label. -/
theorem Typed.fresh_of_pmmAlloc {pmm : Pmm} (hT : Typed S s lab)
    (ha : s.pmm.pmmAlloc = some (g, pmm)) : lab g = none := by
  by_contra hne
  obtain ⟨l, hl⟩ := Option.ne_none_iff_exists'.1 hne
  exact hT.not_free hl (Pmm.pmmAlloc_eq_some ha).1

theorem Typed.ne_of_pmmAlloc {pmm : Pmm} (hT : Typed S s lab) (ha : s.pmm.pmmAlloc = some (g, pmm))
    (hf : lab f = some l) : f ≠ g := by
  rintro rfl
  rw [hT.fresh_of_pmmAlloc ha] at hf
  cases hf

/-- The globals that page tables do not touch. -/
structure SameGlobals (s s' : Mem) : Prop where
  kernelPml4 : s'.kernelPml4 = s.kernelPml4
  heapCurrentLimit : s'.heapCurrentLimit = s.heapCurrentLimit
  heapFreeList : s'.heapFreeList = s.heapFreeList
  heapBytes : s'.heapBytes = s.heapBytes

theorem SameGlobals.refl (s : Mem) : SameGlobals s s := ⟨rfl, rfl, rfl, rfl⟩

theorem SameGlobals.trans (h : SameGlobals s s') (h' : SameGlobals s' s'') : SameGlobals s s'' :=
  ⟨h'.kernelPml4.trans h.kernelPml4, h'.heapCurrentLimit.trans h.heapCurrentLimit,
    h'.heapFreeList.trans h.heapFreeList, h'.heapBytes.trans h.heapBytes⟩

/-! ## Grafts -/

/-- **What grafting the frames `gs` leaves true.** -/
structure Grown (S : Scheme L (Fin 512)) (s s' : Mem) (lab lab' : ℕ → Option L) (gs : List ℕ) :
    Prop where
  typed : Typed S s' lab'
  keep : ∀ h l, lab h = some l → lab' h = some l
  fresh : ∀ g ∈ gs, s.pmm.Free g ∧ lab' g ≠ none
  new : ∀ h, lab' h ≠ none → lab h ≠ none ∨ h ∈ gs
  nodup : gs.Nodup
  used : ∀ h, s'.pmm.bitmapTest h = true ↔ s.pmm.bitmapTest h = true ∨ h ∈ gs
  usedPages : s'.pmm.usedPages = s.pmm.usedPages + UInt64.ofNat gs.length
  totalPages : s'.pmm.totalPages = s.pmm.totalPages
  avail : ∀ n, s.pmm.Avail (n + gs.length) → s'.pmm.Avail n
  globals : SameGlobals s s'
  frames : ∀ h, lab h = none → h ∉ gs → s'.phys h = s.phys h
  kids : ∀ h i x, lab h ≠ none → s.next h i = some x → s'.next h i = some x
  foreign : ∀ h l i, lab h = some l → S.child l i = none → s'.entry h i = s.entry h i
  pat : ∀ h i, h ∉ gs → (s'.entry h i).pat = (s.entry h i).pat
  patNew : ∀ g ∈ gs, ∀ i, (s'.entry g i).pat = false
  lookups : ∀ {r l is l1} j, lab r = some l → S.along l is = some l1 → S.level l1 = 1 →
    find s'.next s'.leaf (is ++ [j]) r = find s.next s.leaf (is ++ [j]) r

theorem Grown.refl (h : Typed S s lab) : Grown S s s lab lab [] where
  typed := h
  keep _ _ := id
  fresh g hg := by cases hg
  new _ := .inl
  nodup := .nil
  used _ := by simp
  usedPages := by simp
  totalPages := rfl
  avail _ := id
  globals := .refl s
  frames _ _ _ := rfl
  kids _ _ _ _ := id
  foreign _ _ _ _ _ := rfl
  pat _ _ _ := rfl
  patNew g hg := by cases hg
  lookups _ _ _ _ := rfl

theorem Grown.trans {gs gs' : List ℕ} (h : Grown S s s' lab lab' gs)
    (h' : Grown S s' s'' lab' lab'' gs') : Grown S s s'' lab lab'' (gs' ++ gs) where
  typed := h'.typed
  keep f l hl := h'.keep f l (h.keep f l hl)
  fresh g hg := by
    rcases List.mem_append.1 hg with hg | hg
    · obtain ⟨⟨h1, hlt, hclear⟩, hlab⟩ := h'.fresh g hg
      refine ⟨⟨h1, h.totalPages ▸ hlt, ?_⟩, hlab⟩
      have hnot := (h.used g).not.1 (by simp [hclear])
      simpa using fun ht => hnot (.inl ht)
    · obtain ⟨hfree, hlab⟩ := h.fresh g hg
      obtain ⟨l, hl⟩ := Option.ne_none_iff_exists'.1 hlab
      exact ⟨hfree, by simp [h'.keep g l hl]⟩
  new f hf := by
    rcases h'.new f hf with hf | hf
    · rcases h.new f hf with hf | hf
      · exact .inl hf
      · exact .inr (List.mem_append_right _ hf)
    · exact .inr (List.mem_append_left _ hf)
  nodup := by
    refine List.nodup_append.2 ⟨h'.nodup, h.nodup, fun a ha b hb hab => ?_⟩
    have hclear := (h'.fresh a ha).1.2.2
    have hset := (h.used b).2 (.inr hb)
    rw [← hab, hclear] at hset
    cases hset
  used f := by
    rw [h'.used, h.used, List.mem_append]
    tauto
  usedPages := by
    rw [h'.usedPages, h.usedPages, List.length_append, Nat.add_comm, UInt64.ofNat_add, UInt64.add_assoc]
  totalPages := h'.totalPages.trans h.totalPages
  avail n hn := by
    refine h'.avail n (h.avail _ ?_)
    rwa [List.length_append, ← Nat.add_assoc] at hn
  globals := h.globals.trans h'.globals
  frames f hf hnot := by
    rw [List.mem_append, not_or] at hnot
    have hf' : lab' f = none := by
      by_contra hne
      rcases h.new f hne with hne | hmem
      · exact hne hf
      · exact hnot.2 hmem
    rw [h'.frames f hf' hnot.1, h.frames f hf hnot.2]
  kids f i x hf hx := by
    obtain ⟨l, hl⟩ := Option.ne_none_iff_exists'.1 hf
    exact h'.kids f i x (by simp [h.keep f l hl]) (h.kids f i x hf hx)
  foreign f l i hl hc := by
    rw [h'.foreign f l i (h.keep f l hl) hc, h.foreign f l i hl hc]
  pat f i hnot := by
    rw [List.mem_append, not_or] at hnot
    rw [h'.pat f i hnot.1, h.pat f i hnot.2]
  patNew g hg i := by
    by_cases hg' : g ∈ gs'
    · exact h'.patNew g hg' i
    · rcases List.mem_append.1 hg with hg | hg
      · exact absurd hg hg'
      · rw [h'.pat g i hg', h.patNew g hg i]
  lookups j hr hal hone := by
    rw [h'.lookups j (h.keep _ _ hr) hal hone, h.lookups j hr hal hone]

theorem Grown.narrow {gs : List ℕ} (h : Grown S s s' lab lab' gs) {n : ℕ}
    (hn : s.pmm.Narrow (n + gs.length)) : s'.pmm.Narrow n :=
  hn.imp (fun htot => h.totalPages ▸ htot) (h.avail n)

/-! ## One graft -/

/-- Memory after the table in frame `g` has been made for entry `i` of `f`. -/
def Mem.graft (s : Mem) (pmm : Pmm) (f : ℕ) (i : Fin 512) (user : Bool) (g : ℕ) : Mem :=
  ({ s with pmm := pmm }.setFrame g Page.zero).setEntry f i ((s.entry f i).point user g)

variable {h r : ℕ}

section Graft

variable {pmm : Pmm} {f g : ℕ} {i : Fin 512} {user : Bool}

theorem Mem.graft_entry_here : (s.graft pmm f i user g).entry f i = (s.entry f i).point user g :=
  Mem.entry_setEntry_self ..

theorem Mem.graft_entry_new (hne : f ≠ g) (j : Fin 512) :
    (s.graft pmm f i user g).entry g j = .ofRaw 0 := by
  rw [graft, entry_setEntry_of_ne _ _ fun h => hne h.1.symm, entry, setFrame_phys_self,
    Page.entry_zero]

theorem Mem.graft_entry_other {j : Fin 512} (hg : h ≠ g) (hf : ¬(h = f ∧ j = i)) :
    (s.graft pmm f i user g).entry h j = s.entry h j := by
  rw [graft, entry_setEntry_of_ne _ _ hf, entry, setFrame_phys_of_ne _ _ hg]
  rfl

theorem Mem.graft_phys (hg : h ≠ g) (hf : h ≠ f) : (s.graft pmm f i user g).phys h = s.phys h := by
  rw [graft, setEntry_phys_of_ne _ _ hf, setFrame_phys_of_ne _ _ hg]

/-- The graft, seen by lookups. -/
theorem grafted_graft (habs : (s.entry f i).present = false) (hne : f ≠ g)
    (hsmall : g < Pmm.frameLimit) :
    Grafted s.next (s.graft pmm f i user g).next s.leaf (s.graft pmm f i user g).leaf f i g where
  absent := by simp [Mem.next, habs]
  here := by
    rw [Mem.next, Mem.graft_entry_here, if_pos (Pte.point_present ..), Pte.point_address hsmall]
  kid_empty j := by
    rw [Mem.next, Mem.graft_entry_new hne, if_neg (by decide)]
  leaf_empty j := by
    rw [Mem.leaf, Mem.graft_entry_new hne, if_neg (by decide)]
  kid_other h j hg hf := by rw [Mem.next, Mem.graft_entry_other hg hf, Mem.next]
  leaf_other h j hg hf := by rw [Mem.leaf, Mem.graft_entry_other hg hf, Mem.leaf]

/-- **One graft.** -/
theorem grown_graft (hT : Typed S s lab) (ha : s.pmm.pmmAlloc = some (g, pmm))
    (hsmall : g < Pmm.frameLimit) (habs : (s.entry f i).present = false) {l' : L}
    (hf : lab f = some l) (hlevel : 2 ≤ S.level l) (hl : S.child l i = some l') :
    Grown S s (s.graft pmm f i user g) lab (update lab g (some l')) [g] := by
  obtain ⟨hfree, -, htot, hused, htest⟩ := Pmm.pmmAlloc_eq_some ha
  have hfresh := hT.fresh_of_pmmAlloc ha
  have hne := hT.ne_of_pmmAlloc ha hf
  have hgraft : Grafted s.next (s.graft pmm f i user g).next s.leaf (s.graft pmm f i user g).leaf
      f i g := grafted_graft habs hne hsmall
  have hiff : ∀ h, pmm.bitmapTest h = true ↔ s.pmm.bitmapTest h = true ∨ h ∈ [g] := by
    intro h
    rw [htest]
    simp
  refine
    { typed := ⟨hT.labelled.graft hgraft hfresh hf hl, fun h l1 hl1 => (hiff h).2 ?_⟩
      keep := fun h l1 hl1 => ?_
      fresh := fun h hh => ?_
      new := fun h hh => ?_
      nodup := List.nodup_singleton g
      used := hiff
      usedPages := hused
      totalPages := htot
      avail := fun n hn => ?_
      globals := ⟨rfl, rfl, rfl, rfl⟩
      frames := fun h hh hnot => ?_
      kids := fun h j x hh hx => ?_
      foreign := fun h l1 j hl1 hc => ?_
      pat := fun h j hnot => ?_
      patNew := fun h hh j => ?_
      lookups := fun j hr hal hone => find_graft hT.labelled hgraft hfresh hf hlevel j hr hal hone }
  · rcases eq_or_ne h g with rfl | hg
    · exact .inr List.mem_cons_self
    · rw [update_of_ne hg] at hl1
      exact .inl (hT.used h l1 hl1)
  · have hg : h ≠ g := by
      rintro rfl
      rw [hfresh] at hl1
      cases hl1
    rwa [update_of_ne hg]
  · obtain rfl := List.mem_singleton.1 hh
    exact ⟨hfree, by simp⟩
  · rcases eq_or_ne h g with rfl | hg
    · exact .inr List.mem_cons_self
    · exact .inl (by rwa [update_of_ne hg] at hh)
  · obtain ⟨g', pmm', ha', -, hav⟩ := hn.pmmAlloc
    obtain ⟨-, rfl⟩ := Prod.mk.inj (Option.mem_unique ha ha')
    exact hav
  · refine Mem.graft_phys (by simpa using hnot) ?_
    rintro rfl
    rw [hf] at hh
    cases hh
  · rcases eq_or_ne h g with rfl | hg
    · exact absurd hfresh hh
    · rw [hgraft.kid_other h j hg]
      · exact hx
      · rintro ⟨rfl, rfl⟩
        rw [hgraft.absent] at hx
        cases hx
  · refine Mem.graft_entry_other (hT.ne_of_pmmAlloc ha hl1) ?_
    rintro ⟨rfl, rfl⟩
    obtain rfl := Option.mem_unique hf hl1
    rw [hl] at hc
    cases hc
  · have hg : h ≠ g := by simpa using hnot
    by_cases hhere : h = f ∧ j = i
    · obtain ⟨rfl, rfl⟩ := hhere
      rw [Mem.graft_entry_here]
      rfl
    · rw [Mem.graft_entry_other hg hhere]
  · obtain rfl := List.mem_singleton.1 hh
    rw [Mem.graft_entry_new hne]
    decide

end Graft

/-! ## `map_page` -/

section MapPage

variable {f : ℕ} {i : Fin 512} {user : Bool} {l l' : L}

/-- An entry that is present is followed. -/
theorem nextTable_present (h : (s.entry f i).present = true) :
    nextTable f i user s = .done (s.entry f i).address.val s := by
  simp [nextTable, h]

/-- An absent one stops the machine when no frame is left. -/
theorem nextTable_halt (h : (s.entry f i).present = false) (ha : s.pmm.pmmAlloc = none) :
    nextTable f i user s = .halt s := by
  simp [nextTable, allocPageTable, pmmAlloc, h, ha]

/-- An absent one gets a fresh table. -/
theorem nextTable_graft (h : (s.entry f i).present = false) {pmm : Pmm}
    (ha : s.pmm.pmmAlloc = some (g, pmm)) (hne : f ≠ g) (hsmall : g < Pmm.frameLimit) :
    nextTable f i user s = .done g (s.graft pmm f i user g) := by
  have hentry : ({ s with pmm := pmm }.setFrame g Page.zero).entry f i = s.entry f i := by
    rw [Mem.entry, Mem.setFrame_phys_of_ne _ _ hne, Mem.entry]
  have haddr : ((s.graft pmm f i user g).entry f i).address.val = g := by
    rw [Mem.graft_entry_here, Pte.point_address hsmall]
  simp [nextTable, allocPageTable, pmmAlloc, h, ha, hentry, ← Mem.graft.eq_1, haddr]

/-- Whatever the tables are, only frames and the bitmap change, and only the lack of a frame stops
the machine. -/
theorem nextTable_frame : Ensures (nextTable f i user) s (fun _ s' => SameGlobals s s')
    (fun s' => SameGlobals s s' ∧ s'.pmm.pmmAlloc = none) := by
  rw [Ensures]
  cases hp : (s.entry f i).present with
  | true =>
    rw [nextTable_present hp]
    exact .refl s
  | false =>
    cases ha : s.pmm.pmmAlloc with
    | none =>
      rw [nextTable_halt hp ha]
      exact ⟨.refl s, ha⟩
    | some r =>
      simp only [nextTable, allocPageTable, pmmAlloc, hp, ha, bind_apply, read_apply,
        modify_apply, pure_apply, if_neg Bool.false_ne_true]
      exact ⟨rfl, rfl, rfl, rfl⟩

theorem mapPage_frame (pml4 v paddr flags : ℕ) :
    Ensures (mapPage pml4 v paddr flags) s (fun _ s' => SameGlobals s s')
      (fun s' => SameGlobals s s' ∧ s'.pmm.pmmAlloc = none) := by
  refine nextTable_frame.bind fun pdpt s1 h1 => ?_
  refine ensures_bind (nextTable_frame.mono (fun pd s2 h2 => ?_) fun s' h => ⟨h1.trans h.1, h.2⟩)
  refine ensures_bind (nextTable_frame.mono (fun pt s3 h3 => ?_)
    fun s' h => ⟨(h1.trans h2).trans h.1, h.2⟩)
  exact ensures_modify (((h1.trans h2).trans h3).trans ⟨rfl, rfl, rfl, rfl⟩)

/-- **One level of `map_page`** leads to a table with the right label, which it may have to graft;
it halts without a change when there is no frame left. -/
theorem nextTable_grown (user : Bool) (hT : Typed S s lab) (hf : lab f = some l) (hlevel : 2 ≤ S.level l)
    (hl : S.child l i = some l') (hn : s.pmm.Narrow 1) : Ensures (nextTable f i user) s
      (fun f' s' => ∃ lab' gs, Grown S s s' lab lab' gs ∧ gs.length ≤ 1 ∧ (∀ g ∈ gs, g = f') ∧
        lab' f' = some l' ∧ s'.next f i = some f')
      (fun s' => s' = s ∧ s.pmm.pmmAlloc = none) := by
  rw [Ensures]
  cases hp : (s.entry f i).present with
  | true =>
    have hnext : s.next f i = some (s.entry f i).address.val := by simp [Mem.next, hp]
    rw [nextTable_present hp]
    exact ⟨lab, [], .refl hT, by simp, by simp, hT.labelled f l i l' _ hf hl hnext, hnext⟩
  | false =>
    cases ha : s.pmm.pmmAlloc with
    | none =>
      rw [nextTable_halt hp ha]
      exact ⟨rfl, rfl⟩
    | some r =>
      obtain ⟨g, pmm⟩ := r
      have hsmall := hn.lt_frameLimit ha
      have hne := hT.ne_of_pmmAlloc ha hf
      rw [nextTable_graft hp ha hne hsmall]
      exact ⟨update lab g (some l'), [g], grown_graft hT ha hsmall hp hf hlevel hl,
        Nat.le_refl 1, by simp, update_self .., (grafted_graft hp hne hsmall).here⟩

/-- The tables for `v` below `root` are there, the last of them in frame `pt`: from `s`, the frames
`gs` had to be grafted. -/
structure Tabled (S : Scheme L (Fin 512)) (s s' : Mem) (lab lab' : ℕ → Option L) (gs : List ℕ)
    (root v pt : ℕ) (l l1 : L) : Prop where
  grown : Grown S s s' lab lab' gs
  length : gs.length ≤ 3
  tables : ∀ g ∈ gs, ∃ is, is <+: upperPath v ∧ descend s'.next is root = some g
  rootLabel : lab root = some l
  along : S.along l (upperPath v) = some l1
  last : S.level l1 = 1
  label : lab' pt = some l1
  table : descend s'.next (upperPath v) root = some pt

/-- The last-level write of `map_page`. -/
def Mem.mapLeaf (s : Mem) (pt v paddr flags : ℕ) : Mem :=
  s.setEntry pt (ptIndex v) ((s.entry pt (ptIndex v)).point (pteUser flags) (paddr / 4096))

/-- **`map_page`** makes the tables for `v` and writes the last-level entry, or halts with some of
the tables made because no frame is left. -/
theorem mapPage_tabled (paddr flags : ℕ) {l1 : L} (hT : Typed S s lab) (hroot : lab root = some l)
    (hal : S.along l (upperPath v) = some l1) (hone : S.level l1 = 1) (hn : s.pmm.Narrow 3) :
    Ensures (mapPage root v paddr flags) s
      (fun _ s' => ∃ s3 lab' gs pt, Tabled S s s3 lab lab' gs root v pt l l1 ∧
        s' = s3.mapLeaf pt v paddr flags)
      (fun s' => ∃ lab' gs, Grown S s s' lab lab' gs ∧ gs.length ≤ 2 ∧
        s'.pmm.pmmAlloc = none) := by
  have halong := hal
  obtain ⟨l3, hl3, hal⟩ := Option.bind_eq_some_iff.1 hal
  obtain ⟨l2, hl2, hal⟩ := Option.bind_eq_some_iff.1 hal
  obtain ⟨l1', hl1, hal⟩ := Option.bind_eq_some_iff.1 hal
  cases hal
  have h3 := S.level_child hl3
  have h2 := S.level_child hl2
  have h1 := S.level_child hl1
  have hstep1 := nextTable_grown (pteUser flags) hT hroot (by omega) hl3 (hn.mono (by omega))
  refine ensures_bind (hstep1.mono ?_ ?_)
  · rintro pdpt s1 ⟨lab1, gs1, hg1, hlen1, hgs1, hpdpt, hnext1⟩
    have hn1 : s1.pmm.Narrow 2 := hg1.narrow (hn.mono (by omega))
    have hstep2 := nextTable_grown (pteUser flags) hg1.typed hpdpt (by omega) hl2
      (hn1.mono (by omega))
    refine ensures_bind (hstep2.mono ?_ ?_)
    · rintro pd s2 ⟨lab2, gs2, hg2, hlen2, hgs2, hpd, hnext2⟩
      have hn2 : s2.pmm.Narrow 1 := hg2.narrow (hn1.mono (by omega))
      have hstep3 := nextTable_grown (pteUser flags) hg2.typed hpd (by omega) hl1 hn2
      refine ensures_bind (hstep3.mono ?_ ?_)
      · rintro pt s3 ⟨lab3, gs3, hg3, hlen3, hgs3, hpt, hnext3⟩
        have hroot' : s3.next root (pml4Index v) = some pdpt :=
          hg3.kids _ _ _ (by simp [hg2.keep _ _ (hg1.keep _ _ hroot)])
            (hg2.kids _ _ _ (by simp [hg1.keep _ _ hroot]) hnext1)
        have hpdpt' : s3.next pdpt (pdptIndex v) = some pd :=
          hg3.kids _ _ _ (by simp [hg2.keep _ _ hpdpt]) hnext2
        refine ensures_modify ⟨s3, lab3, gs3 ++ (gs2 ++ gs1), pt, ⟨(hg1.trans hg2).trans hg3, ?_,
          fun g hg => ?_, hroot, halong, hone, hpt, ?_⟩, rfl⟩
        · simp only [List.length_append]
          omega
        · rcases List.mem_append.1 hg with hg | hg
          · obtain rfl := hgs3 g hg
            exact ⟨upperPath v, List.prefix_rfl, by simp [upperPath, descend, hroot', hpdpt', hnext3]⟩
          · rcases List.mem_append.1 hg with hg | hg
            · obtain rfl := hgs2 g hg
              exact ⟨[pml4Index v, pdptIndex v], ⟨[pdIndex v], rfl⟩, by
                simp [descend, hroot', hpdpt']⟩
            · obtain rfl := hgs1 g hg
              exact ⟨[pml4Index v], ⟨[pdptIndex v, pdIndex v], rfl⟩, by simp [descend, hroot']⟩
        · simp [upperPath, descend, hroot', hpdpt', hnext3]
      · rintro s' ⟨rfl, hnone⟩
        refine ⟨lab2, gs2 ++ gs1, hg1.trans hg2, ?_, hnone⟩
        simp only [List.length_append]
        omega
    · rintro s' ⟨rfl, hnone⟩
      exact ⟨lab1, gs1, hg1, by omega, hnone⟩
  · rintro s' ⟨rfl, hnone⟩
    exact ⟨lab, [], .refl hT, by simp, hnone⟩

/-- With three frames to allocate it returns. -/
theorem mapPage_done (paddr flags : ℕ) {l1 : L} (hT : Typed S s lab) (hroot : lab root = some l)
    (hal : S.along l (upperPath v) = some l1) (hone : S.level l1 = 1) (hav : s.pmm.Avail 3) :
    Ensures (mapPage root v paddr flags) s
      (fun _ s' => ∃ s3 lab' gs pt, Tabled S s s3 lab lab' gs root v pt l l1 ∧
        s' = s3.mapLeaf pt v paddr flags) (fun _ => False) := by
  refine (mapPage_tabled paddr flags hT hroot hal hone (.inr hav)).mono (fun _ _ => id) ?_
  rintro s' ⟨lab', gs, hgrown, hlen, hnone⟩
  exact Pmm.not_avail_of_pmmAlloc hnone (hgrown.avail 1 (hav.mono (by omega)))

section Tabled

variable {gs : List ℕ} {root v pt : ℕ} {l1 : L} (paddr flags : ℕ)

@[simp] theorem Mem.mapLeaf_entry_self : (s.mapLeaf pt v paddr flags).entry pt (ptIndex v) =
    (s.entry pt (ptIndex v)).point (pteUser flags) (paddr / 4096) :=
  Mem.entry_setEntry_self ..

theorem Mem.mapLeaf_entry_of_ne {j : Fin 512} (hne : ¬(h = pt ∧ j = ptIndex v)) :
    (s.mapLeaf pt v paddr flags).entry h j = s.entry h j :=
  Mem.entry_setEntry_of_ne s _ hne

/-- Lookups see the entry written and nothing else. -/
theorem written_mapLeaf :
    Written s.next (s.mapLeaf pt v paddr flags).next s.leaf (s.mapLeaf pt v paddr flags).leaf
      pt (ptIndex v) where
  kid_other h j hne := by rw [Mem.next, Mem.mapLeaf_entry_of_ne paddr flags hne, Mem.next]
  leaf_other h j hne := by rw [Mem.leaf, Mem.mapLeaf_entry_of_ne paddr flags hne, Mem.leaf]

/-- Higher levels do not see the last-level write. -/
theorem Tabled.descend (h : Tabled S s s' lab lab' gs root v pt l l1) {is : List (Fin 512)}
    (hr : lab' r = some lr) (hal : S.along lr is = some lx) (hlx : 1 ≤ S.level lx) :
    descend (s'.mapLeaf pt v paddr flags).next is r = descend s'.next is r :=
  descend_written h.grown.typed.labelled (written_mapLeaf ..) h.label hr hal (h.last ▸ hlx)

/-- **The page is mapped.** -/
theorem Tabled.walk_self (h : Tabled S s s' lab lab' gs root v pt l l1) :
    (s'.mapLeaf pt v paddr flags).walk root v =
      some ((s'.entry pt (ptIndex v)).point (pteUser flags) (paddr / 4096)) := by
  have hroot := h.grown.keep root l h.rootLabel
  rw [Mem.walk, find_snoc, h.descend paddr flags hroot h.along (Nat.le_of_eq h.last.symm), h.table,
    Option.bind_some, Mem.leaf, Mem.mapLeaf_entry_self, if_pos (Pte.point_present ..)]

/-- **No other lookup changes**, but those that end in the entry written. -/
theorem Tabled.find_other (h : Tabled S s s' lab lab' gs root v pt l l1) {is : List (Fin 512)}
    (j : Fin 512) (hr : lab r = some lr) (hal : S.along lr is = some lx) (hlx : S.level lx = 1)
    (hne : ¬(Radix.descend s'.next is r = some pt ∧ j = ptIndex v)) :
    find (s'.mapLeaf pt v paddr flags).next (s'.mapLeaf pt v paddr flags).leaf (is ++ [j]) r =
      find s.next s.leaf (is ++ [j]) r := by
  rw [find_written h.grown.typed.labelled (written_mapLeaf ..) h.label h.last j
    (h.grown.keep r lr hr) hal hlx hne, h.grown.lookups j hr hal hlx]

/-- **What was mapped is mapped**, in the entry written or elsewhere. -/
theorem Tabled.walk_isSome (h : Tabled S s s' lab lab' gs root v pt l l1) {w : ℕ}
    (hr : lab r = some lr) (hal : S.along lr (upperPath w) = some lx) (hlx : S.level lx = 1)
    (hw : (s.walk r w).isSome) : ((s'.mapLeaf pt v paddr flags).walk r w).isSome := by
  by_cases hne : Radix.descend s'.next (upperPath w) r = some pt ∧ ptIndex w = ptIndex v
  · rw [Mem.walk, find_snoc, h.descend paddr flags (h.grown.keep r lr hr) hal hlx.ge, hne.1,
      Option.bind_some, hne.2, Mem.leaf, Mem.mapLeaf_entry_self, if_pos (Pte.point_present ..)]
    rfl
  · rw [Mem.walk, h.find_other paddr flags _ hr hal hlx hne]
    exact hw

/-- The labelling is kept, if the mapped frame carries the label its place asks for. -/
theorem Tabled.typed (h : Tabled S s s' lab lab' gs root v pt l l1)
    (hfit : ∀ l', S.child l1 (ptIndex v) = some l' →
      paddr / 4096 < 2 ^ 40 ∧ lab' (paddr / 4096) = some l') :
    Typed S (s'.mapLeaf pt v paddr flags) lab' where
  labelled := by
    refine h.grown.typed.labelled.written (written_mapLeaf ..) fun l0 l' g hpt hl' hg => ?_
    obtain rfl := Option.mem_unique h.label hpt
    obtain ⟨hlt, hlab⟩ := hfit l' hl'
    rw [Mem.next, Mem.mapLeaf_entry_self, if_pos (Pte.point_present ..), Pte.point_address hlt] at hg
    cases hg
    exact hlab
  used := h.grown.typed.used

end Tabled

end MapPage

end Hvos.Memory
