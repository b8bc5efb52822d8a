import Hvos.Lib.Twin
import Hvos.Memory.Heap
import Hvos.Memory.MapFresh

/-!
# Memory/TwinMaps — one `map_page` on two memories

Two memories that are the same but for the contents of frames (`Beside`), and the tables among those
the same too (`Alike`).  `map_page` looks at tables only, so it does the same to both: frames that
were equal stay equal, the tables it makes are equal, and a frame that is no table keeps what it
holds in either memory (`Abreast`).
-/

namespace Hvos.Memory

open Radix Prog Function

variable {L : Type} {S : Scheme L (Fin 512)} {s t s' t' s'' t'' : Mem} {lab lab' : ℕ → Option L}

/-! ## Two memories -/

/-- `t` is `s` but for what is in the frames. -/
def Beside (s t : Mem) : Prop := t = { s with phys := t.phys }

namespace Beside

theorem refl (s : Mem) : Beside s s := rfl

theorem pmm (h : Beside s t) : t.pmm = s.pmm := by rw [h]

theorem kernelPml4 (h : Beside s t) : t.kernelPml4 = s.kernelPml4 := by rw [h]

theorem heapCurrentLimit (h : Beside s t) : t.heapCurrentLimit = s.heapCurrentLimit := by rw [h]

theorem setPmm (h : Beside s t) (pmm : Pmm) :
    Beside { s with pmm := pmm } { t with pmm := pmm } := by
  rw [Beside, h]

theorem setFrame (h : Beside s t) (g : ℕ) (pg pg' : Page) :
    Beside (s.setFrame g pg) (t.setFrame g pg') := by
  rw [Beside, h]
  rfl

end Beside

/-- **The tables of the two memories are the same**, and so is everything but frames. -/
structure Alike (S : Scheme L (Fin 512)) (lab : ℕ → Option L) (s t : Mem) : Prop where
  beside : Beside s t
  tables : ∀ f l, lab f = some l → 0 < S.level l → t.phys f = s.phys f

theorem Mem.entry_congr {f : ℕ} (h : t.phys f = s.phys f) : t.entry f = s.entry f := by
  funext i
  rw [entry, h, entry]

/-- From `s` and `t` to `s'` and `t'`, frames have been taken, all of them for the same contents;
the frames in `W` may have been written, with the same contents if they were the same; other frames
that were in use, or still are not, keep what they hold. -/
structure Abreast (W : ℕ → Prop) (s t s' t' : Mem) : Prop where
  beside : Beside s' t'
  used : ∀ f, s.pmm.bitmapTest f = true → s'.pmm.bitmapTest f = true
  equal : ∀ f, t.phys f = s.phys f → t'.phys f = s'.phys f
  taken : ∀ f, s.pmm.bitmapTest f = false → s'.pmm.bitmapTest f = true → t'.phys f = s'.phys f
  idle : ∀ f, ¬W f → s.pmm.bitmapTest f = true ∨ s'.pmm.bitmapTest f = false →
    s'.phys f = s.phys f ∧ t'.phys f = t.phys f

namespace Abreast

variable {W W' : ℕ → Prop}

theorem refl (h : Beside s t) : Abreast W s t s t where
  beside := h
  used _ := id
  equal _ := id
  taken f hfree hused := by
    rw [hfree] at hused
    cases hused
  idle _ _ _ := ⟨rfl, rfl⟩

theorem mono (h : Abreast W s t s' t') (hW : ∀ f, W f → W' f) : Abreast W' s t s' t' :=
  ⟨h.beside, h.used, h.equal, h.taken, fun f hf => h.idle f (mt (hW f) hf)⟩

theorem trans (h : Abreast W s t s' t') (h' : Abreast W' s' t' s'' t'')
    (hW : ∀ f, W' f → s'.pmm.bitmapTest f = true ∧ (s.pmm.bitmapTest f = true → W f)) :
    Abreast W s t s'' t'' where
  beside := h'.beside
  used f hf := h'.used f (h.used f hf)
  equal f hf := h'.equal f (h.equal f hf)
  taken f hfree hused := by
    cases hmid : s'.pmm.bitmapTest f with
    | true => exact h'.equal f (h.taken f hfree hmid)
    | false => exact h'.taken f hmid hused
  idle f hf hcase := by
    have hmid : s.pmm.bitmapTest f = true ∨ s'.pmm.bitmapTest f = false := by
      refine hcase.imp_right fun hfree => Bool.eq_false_iff.2 fun hused => ?_
      rw [h'.used f hused] at hfree
      cases hfree
    have hW' : ¬W' f := fun hw => by
      obtain ⟨hused, hold⟩ := hW f hw
      rcases hmid with hmid | hmid
      · exact hf (hold hmid)
      · rw [hused] at hmid
        cases hmid
    obtain ⟨hs, ht⟩ := h.idle f hf hmid
    obtain ⟨hs', ht'⟩ := h'.idle f hW' (hcase.imp_left (h.used f))
    exact ⟨hs'.trans hs, ht'.trans ht⟩

/-- One frame is rewritten, in the same way. -/
theorem setFrame (h : Beside s t) {f : ℕ} {pg pg' : Page} (hpg : t.phys f = s.phys f → pg' = pg) :
    Abreast (· = f) s t (s.setFrame f pg) (t.setFrame f pg') where
  beside := h.setFrame f pg pg'
  used _ := id
  equal g hg := by
    rcases eq_or_ne g f with rfl | hne
    · rw [Mem.setFrame_phys_self, Mem.setFrame_phys_self, hpg hg]
    · rw [Mem.setFrame_phys_of_ne _ _ hne, Mem.setFrame_phys_of_ne _ _ hne, hg]
  taken g hfree hused := by
    rw [Mem.setFrame_pmm, hfree] at hused
    cases hused
  idle g hne _ := ⟨Mem.setFrame_phys_of_ne _ _ hne, Mem.setFrame_phys_of_ne _ _ hne⟩

end Abreast

/-- A table gets its place. -/
theorem Alike.extend (h : Alike S lab s t) {W : ℕ → Prop} (hext : Extends S s s' lab lab')
    (ha : Abreast W s t s' t') : Alike S lab' s' t' where
  beside := ha.beside
  tables f l hf hl := by
    cases hold : lab f with
    | some l' =>
      obtain rfl := Option.some.inj ((hext.keep f l' hold).symm.trans hf)
      exact ha.equal f (h.tables f l' hold hl)
    | none =>
      have hfree := hext.fresh f hold (by simp [hf])
      exact ha.taken f hfree.2.2 (hext.typed.used f l hf)

/-! ## `map_page` -/

theorem twin_pmmAlloc {Q : Option ℕ → Mem → Mem → Prop} {H : Mem → Mem → Prop} (h : Beside s t)
    (hnone : s.pmm.pmmAlloc = none → Q none s t) (hsome : ∀ g pmm, s.pmm.pmmAlloc = some (g, pmm) →
      Q (some g) { s with pmm := pmm } { t with pmm := pmm }) : Twin pmmAlloc s t Q H := by
  have hpmm := h.pmm
  cases ha : s.pmm.pmmAlloc with
  | none => exact twin_of_done (by simp [pmmAlloc, ha]) (by simp [pmmAlloc, hpmm, ha]) (hnone ha)
  | some r =>
    exact twin_of_done (by simp [pmmAlloc, ha]) (by simp [pmmAlloc, hpmm, ha]) (hsome r.1 r.2 ha)

variable {pmm : Pmm}

/-- A frame is taken and cleared. -/
theorem Abreast.takeZero (h : Beside s t) {W : ℕ → Prop} {g : ℕ}
    (ha : s.pmm.pmmAlloc = some (g, pmm)) :
    Abreast W s t ({ s with pmm := pmm }.setFrame g Page.zero)
      ({ t with pmm := pmm }.setFrame g Page.zero) := by
  obtain ⟨hfree, -, -, -, htest⟩ := Pmm.pmmAlloc_eq_some ha
  refine ⟨(h.setPmm pmm).setFrame .., fun f hf => ?_, fun f hf => ?_, fun f hclear hused => ?_,
    fun f _ hcase => ?_⟩
  · rw [Mem.setFrame_pmm, htest, hf, Bool.true_or]
  · rcases eq_or_ne f g with rfl | hne
    · rw [Mem.setFrame_phys_self, Mem.setFrame_phys_self]
    · rw [Mem.setFrame_phys_of_ne _ _ hne, Mem.setFrame_phys_of_ne _ _ hne, hf]
  · rw [Mem.setFrame_pmm, htest, hclear, Bool.false_or, decide_eq_true_iff] at hused
    rw [hused, Mem.setFrame_phys_self, Mem.setFrame_phys_self]
  · have hne : f ≠ g := by
      rintro rfl
      rw [Mem.setFrame_pmm, htest, hfree.2.2] at hcase
      simp at hcase
    exact ⟨Mem.setFrame_phys_of_ne _ _ hne, Mem.setFrame_phys_of_ne _ _ hne⟩

/-- An absent entry gets a cleared table, whatever frame the table of the entry is in. -/
theorem nextTable_take {f : ℕ} {i : Fin 512} {user : Bool} {g : ℕ}
    (h : (s.entry f i).present = false) (ha : s.pmm.pmmAlloc = some (g, pmm)) :
    nextTable f i user s =
      .done (((({ s with pmm := pmm }.setFrame g Page.zero).entry f i).point user g).address.val)
        (({ s with pmm := pmm }.setFrame g Page.zero).setEntry f i
          ((({ s with pmm := pmm }.setFrame g Page.zero).entry f i).point user g)) := by
  simp [nextTable, allocPageTable, pmmAlloc, h, ha]

/-- **One level of `map_page`** on two memories in which its table is the same. -/
theorem nextTable_twin (h : Beside s t) {f : ℕ} (hf : t.phys f = s.phys f)
    (hused : s.pmm.bitmapTest f = true) (i : Fin 512) (user : Bool) :
    Twin (nextTable f i user) s t (fun _ s' t' => Abreast (· = f) s t s' t')
      (fun s' t' => s' = s ∧ t' = t) := by
  have hentry : t.entry f i = s.entry f i := congrFun (Mem.entry_congr hf) i
  cases hp : (s.entry f i).present with
  | true =>
    refine twin_of_done (nextTable_present hp) ?_ (Abreast.refl h)
    rw [nextTable_present (by rw [hentry, hp]), hentry]
  | false =>
    have hp' : (t.entry f i).present = false := by rw [hentry, hp]
    cases ha : s.pmm.pmmAlloc with
    | none =>
      rw [Twin, Ensures, nextTable_halt hp ha]
      exact ⟨t, nextTable_halt hp' (by rw [h.pmm, ha]), rfl, rfl⟩
    | some r =>
      obtain ⟨g, pmm⟩ := r
      have htake : Abreast (· = f) s t _ _ := Abreast.takeZero h ha
      have hpages := htake.equal f hf
      have hnew := congrFun (Mem.entry_congr hpages) i
      refine twin_of_done (nextTable_take hp ha) ?_ (htake.trans (@Abreast.setFrame _ _
        htake.beside f _ ((({ t with pmm := pmm }.setFrame g Page.zero).phys f).setEntry i _)
        fun heq => by rw [heq]) fun f' hf' => ?_)
      · rw [nextTable_take hp' (by rw [h.pmm, ha]), hnew]
        rfl
      · subst hf'
        exact ⟨htake.used _ hused, fun _ => rfl⟩

variable {l l1 : L}

/-- A frame that was in use has its label from before. -/
theorem Extends.old (h : Extends S s s' lab lab') {f : ℕ} (hf : lab' f = some l)
    (hused : s.pmm.bitmapTest f = true) : lab f = some l := by
  cases hold : lab f with
  | none =>
    rw [h.unlabelled hused hold] at hf
    cases hf
  | some l' => exact (h.keep f l' hold).symm.trans hf

/-- The frames `map_page` may write to below a table labelled `l`: that one, and tables below it. -/
def Below (S : Scheme L (Fin 512)) (lab : ℕ → Option L) (root : ℕ) (l : L) (f : ℕ) : Prop :=
  f = root ∨ ∃ l', lab f = some l' ∧ 0 < S.level l' ∧ S.level l' < S.level l

/-- One more level. -/
theorem Abreast.level {root : ℕ} (hext : Extends S s s' lab lab')
    (h : Abreast (Below S lab root l) s t s' t') {f : ℕ} {l' : L} (hf : lab' f = some l')
    (hpos : 0 < S.level l') (hlt : S.level l' < S.level l) (h' : Abreast (· = f) s' t' s'' t'') :
    Abreast (Below S lab root l) s t s'' t'' := by
  refine h.trans h' fun f' hf' => ?_
  subst hf'
  exact ⟨hext.typed.used _ l' hf, fun hused => .inr ⟨l', hext.old hf hused, hpos, hlt⟩⟩

/-- **`map_page`** on two memories with the same tables. -/
theorem mapPage_twin {root v : ℕ} (paddr flags : ℕ) (hT : Typed S s lab) (hA : Alike S lab s t)
    (hroot : lab root = some l) (hal : S.along l (upperPath v) = some l1) (hone : S.level l1 = 1)
    (hn : s.pmm.Narrow 3) :
    Twin (mapPage root v paddr flags) s t (fun _ => Abreast (Below S lab root l) s t)
      (Abreast (Below S lab root l) s t) := by
  obtain ⟨l3, hl3, hal⟩ := Option.bind_eq_some_iff.1 hal
  obtain ⟨l2, hl2, hal⟩ := Option.bind_eq_some_iff.1 hal
  obtain ⟨l1', hl1, hal⟩ := Option.bind_eq_some_iff.1 hal
  cases hal
  have h3 := S.level_child hl3
  have h2 := S.level_child hl2
  have h1 := S.level_child hl1
  have hstep1 := (nextTable_twin hA.beside (hA.tables root l hroot (by omega))
    (hT.used root l hroot) (pml4Index v) (pteUser flags)).and
    (nextTable_grown (pteUser flags) hT hroot (by omega) hl3 (hn.mono (by omega)))
  refine twin_bind (hstep1.mono ?_ ?_)
  · rintro pdpt s1 t1 ⟨ha1, lab1, gs1, hg1, hlen1, -, hpdpt, -⟩
    have hA1 := hA.extend hg1.toExtends ha1
    have hn1 : s1.pmm.Narrow 2 := hg1.narrow (hn.mono (by omega))
    have hall1 : Abreast (Below S lab root l) s t s1 t1 := ha1.mono fun _ => .inl
    have hstep2 := (nextTable_twin hA1.beside (hA1.tables pdpt l3 hpdpt (by omega))
      (hg1.typed.used pdpt l3 hpdpt) (pdptIndex v) (pteUser flags)).and
      (nextTable_grown (pteUser flags) hg1.typed hpdpt (by omega) hl2 (hn1.mono (by omega)))
    refine twin_bind (hstep2.mono ?_ ?_)
    · rintro pd s2 t2 ⟨ha2, lab2, gs2, hg2, hlen2, -, hpd, -⟩
      have hA2 := hA1.extend hg2.toExtends ha2
      have hn2 : s2.pmm.Narrow 1 := hg2.narrow (hn1.mono (by omega))
      have hall2 := hall1.level hg1.toExtends hpdpt (by omega) (by omega) ha2
      have hext2 := hg1.toExtends.trans hg2.toExtends
      have hstep3 := (nextTable_twin hA2.beside (hA2.tables pd l2 hpd (by omega))
        (hg2.typed.used pd l2 hpd) (pdIndex v) (pteUser flags)).and
        (nextTable_grown (pteUser flags) hg2.typed hpd (by omega) hl1 hn2)
      refine twin_bind (hstep3.mono ?_ ?_)
      · rintro pt s3 t3 ⟨ha3, lab3, gs3, hg3, -, -, hpt, -⟩
        have hall3 := hall2.level hext2 hpd (by omega) (by omega) ha3
        refine twin_modify (hall3.level (hext2.trans hg3.toExtends) hpt (by omega) (by omega)
          (Abreast.setFrame ha3.beside fun heq => ?_))
        rw [Mem.entry_congr heq, heq]
      · rintro s' t' ⟨⟨rfl, rfl⟩, -⟩
        exact hall2
    · rintro s' t' ⟨⟨rfl, rfl⟩, -⟩
      exact hall1
  · rintro s' t' ⟨⟨rfl, rfl⟩, -⟩
    exact Abreast.refl hA.beside

/-! ## A fresh frame mapped -/

/-- **`pmm_alloc`, then `map_page`**, on two memories with the same tables. -/
theorem mapFresh_twin {root v g : ℕ} (flags : ℕ) (hT : Typed S s lab) (hA : Alike S lab s t)
    (ha : s.pmm.pmmAlloc = some (g, pmm)) (hroot : lab root = some l)
    (hal : S.along l (upperPath v) = some l1) (hone : S.level l1 = 1) (hn : s.pmm.Narrow 4) :
    Twin (mapPage root v (g * 4096) flags) { s with pmm := pmm } { t with pmm := pmm }
      (fun _ s' t' => ∃ lab', Placed S s s' lab lab' root v g (pteUser flags) l1 ∧
        Alike S lab' s' t' ∧
        Abreast (Below S lab root l) { s with pmm := pmm } { t with pmm := pmm } s' t')
      (fun s' t' => Stuck S s s' lab ∧ ∃ lab', Extends S s s' lab lab' ∧ Alike S lab' s' t' ∧
        Abreast (Below S lab root l) { s with pmm := pmm } { t with pmm := pmm } s' t') := by
  have htake := hT.take ha fun l => level_page (v := v) hone
  -- The page gets the label of a page, so nothing is asked of what it holds.
  have hlab : ∀ f l', update lab g (S.child l1 (ptIndex v)) f = some l' → 0 < S.level l' →
      lab f = some l' := by
    intro f l' hf hl'
    rcases eq_or_ne f g with rfl | hne
    · rw [update_self] at hf
      have hzero := level_page hone hf
      omega
    · rwa [update_of_ne hne] at hf
  have hA' : Alike S (update lab g (S.child l1 (ptIndex v))) { s with pmm := pmm }
      { t with pmm := pmm } :=
    ⟨hA.beside.setPmm pmm, fun f l' hf hl' => hA.tables f l' (hlab f l' hf hl') hl'⟩
  have hbelow : ∀ f, Below S (update lab g (S.child l1 (ptIndex v))) root l f →
      Below S lab root l f := by
    rintro f (hf | ⟨l', hf, hpos, hlt⟩)
    · exact .inl hf
    · exact .inr ⟨l', hlab f l' hf hpos, hpos, hlt⟩
  refine ((mapPage_twin (g * 4096) flags htake.typed hA' (htake.keep root l hroot) hal hone
    (hn.pmmAlloc ha)).and (mapPage_tabled (g * 4096) flags htake.typed (htake.keep root l hroot) hal
      hone (hn.pmmAlloc ha))).mono ?_ ?_
  · rintro - s' t' ⟨hab, s3, lab', gs, pt, htab, rfl⟩
    have hplaced : Placed S s _ lab lab' root v g (pteUser flags) l1 :=
      htab.placed hT ha hone hn
    exact ⟨lab', hplaced, hA'.extend (htab.extends hplaced.typed) hab, hab.mono hbelow⟩
  · rintro s' t' ⟨hab, lab', gs, hgrown, hlen, hnone⟩
    exact ⟨hgrown.stuck hT ha hone hlen hnone, lab', htake.trans hgrown.toExtends,
      hA'.extend hgrown.toExtends hab, hab.mono hbelow⟩

/-- **Nothing is written to a frame that is free, or to the page itself.** -/
theorem mapFresh_idle {root v g : ℕ} (flags : ℕ) (hT : Typed S s lab)
    (ha : s.pmm.pmmAlloc = some (g, pmm)) (hroot : lab root = some l)
    (hal : S.along l (upperPath v) = some l1) (hone : S.level l1 = 1) (hn : s.pmm.Narrow 4) :
    Ensures (mapPage root v (g * 4096) flags) { s with pmm := pmm }
      (fun _ s' => ∀ h, h = g ∨ s'.pmm.Free h → s'.phys h = s.phys h) (fun _ => True) := by
  have hA : Alike S lab s s := ⟨.refl s, fun _ _ _ _ => rfl⟩
  refine (mapFresh_twin flags hT hA ha hroot hal hone hn).ensures.mono ?_ fun _ _ => trivial
  rintro - s' ⟨lab', hplaced, -, hab⟩ h hh
  -- Neither kind of frame has a label.
  have hnone : lab h = none := by
    rcases hh with rfl | hfree
    · exact hT.fresh_of_pmmAlloc ha
    · by_contra hne
      obtain ⟨l', hl'⟩ := Option.ne_none_iff_exists'.1 hne
      have hclear := hfree.2.2
      rw [hplaced.used h (hT.used h l' hl')] at hclear
      cases hclear
  have hout : ¬Below S lab root l h := by
    rintro (rfl | ⟨l', hl', -⟩)
    · rw [hnone] at hroot
      cases hroot
    · rw [hnone] at hl'
      cases hl'
  refine (hab.idle h hout (hh.imp (fun hg => ?_) fun hfree => hfree.2.2)).1
  show pmm.bitmapTest h = true
  rw [hg, (Pmm.pmmAlloc_eq_some ha).2.2.2.2]
  simp

/-! ## The heap

What is done inside the heap does not look at frames. -/

namespace Mem

variable (s : Mem) (x : ℕ → Page)

theorem unlink_withPhys (prev current : ℕ) :
    { s with phys := x }.unlink prev current = { s.unlink prev current with phys := x } := by
  unfold unlink
  split_ifs <;> rfl

theorem split_withPhys (b size : ℕ) :
    { s with phys := x }.split b size = { s.split b size with phys := x } := by
  unfold split
  split_ifs with hfit hfit'
  · rfl
  · exact absurd hfit hfit'
  · exact absurd ‹_› hfit
  · rfl

theorem kfree_withPhys (ptr : ℕ) :
    { s with phys := x }.kfree ptr = { s.kfree ptr with phys := x } := by
  unfold kfree
  split_ifs with hnull
  · rfl
  · dsimp only
    split_ifs with hfree hfree'
    · rfl
    · exact absurd hfree hfree'
    · exact absurd ‹_› hfree
    · rfl

end Mem

section Heap

variable {P : Mem → Mem → Prop} (hbeside : ∀ s t, P s t → Beside s t)
  (hheap : ∀ s t s', P s t → HeapOnly s s' → P s' { s' with phys := t.phys })
  (hexpand : ∀ n s t, P s t → Twin (heapExpand n) s t (fun _ => P) P)
include hbeside hheap

/-- A change inside the heap. -/
theorem twin_modify_heap {F : Mem → Mem} {H : Mem → Mem → Prop}
    (hF : ∀ s x, F { s with phys := x } = { F s with phys := x }) (honly : ∀ s, HeapOnly s (F s))
    (hst : P s t) : Twin (Prog.modify F) s t (fun _ => P) H := by
  have hFt : F t = { F s with phys := t.phys } := by
    rw [← hF]
    exact congrArg F (hbeside s t hst)
  refine twin_modify ?_
  rw [hFt]
  exact hheap s t _ hst (honly s)

include hexpand

/-- **What survives changes inside the heap and `heap_expand` survives `kmalloc`.** -/
theorem kmalloc_twin (size : ℕ) (hst : P s t) : Twin (kmalloc size) s t (fun _ => P) P := by
  unfold kmalloc
  by_cases hsize : size = 0
  · rw [if_pos hsize]
    exact twin_pure hst
  · rw [if_neg hsize]
    unfold kmallocRounded
    have hb := hbeside s t hst
    have hfind : t.findBlock (wrap (size + 15) / 16 * 16) =
        s.findBlock (wrap (size + 15) / 16 * 16) := by
      rw [hb]
      rfl
    refine twin_bind (twin_read hfind ?_)
    rcases s.findBlock (wrap (size + 15) / 16 * 16) with _ | _ | ⟨prev, current⟩
    · exact twin_halt hst
    · refine twin_bind (twin_read hb.heapCurrentLimit (twin_bind ((hexpand _ s t hst).mono ?_
        fun _ _ => id)))
      intro r s' t' hst'
      refine twin_bind (twin_read (hbeside s' t' hst').heapCurrentLimit ?_)
      by_cases hr : r < 0 ∨ s'.heapCurrentLimit = s.heapCurrentLimit
      · rw [if_pos hr]
        exact twin_halt hst'
      · rw [if_neg hr]
        refine (twin_modify_heap hbeside hheap (fun u x => ?_) (fun u => ?_) hst').bind
          fun _ _ _ h => twin_pure h
        · exact Mem.split_withPhys (((u.setSize s.heapCurrentLimit
            (wsub (wsub s'.heapCurrentLimit s.heapCurrentLimit) headerSize)).setIsFree
              s.heapCurrentLimit false).setNext s.heapCurrentLimit 0) x _ _
        · exact (((Mem.setSize_heapOnly ..).trans (Mem.setIsFree_heapOnly ..)).trans
            (Mem.setNext_heapOnly ..)).trans (Mem.split_heapOnly ..)
    · refine (twin_modify_heap hbeside hheap (fun s x => ?_) (fun s => ?_) hst).bind
        fun _ _ _ h => twin_pure h
      · rw [Mem.unlink_withPhys, Mem.split_withPhys]
        rfl
      · exact ((Mem.unlink_heapOnly ..).trans (Mem.split_heapOnly ..)).trans
          (Mem.setIsFree_heapOnly ..)

theorem kzalloc_twin (size : ℕ) (hst : P s t) : Twin (kzalloc size) s t (fun _ => P) P := by
  refine (kmalloc_twin hbeside hheap hexpand size hst).bind fun ptr s' t' hst' => ?_
  by_cases hptr : ptr = 0
  · rw [if_pos hptr]
    exact twin_pure hst'
  · rw [if_neg hptr]
    exact (twin_modify_heap hbeside hheap (fun _ _ => rfl) (fun _ => Mem.zeroHeap_heapOnly ..)
      hst').bind fun _ _ _ h => twin_pure h

end Heap

end Hvos.Memory
