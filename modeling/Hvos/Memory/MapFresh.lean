import Hvos.Memory.MapPage

/-!
# Memory/MapFresh — a frame from `pmm_alloc`, mapped by `map_page`

Every page the kernel hands out goes through this pair of calls.  `Extends` is what any sequence of
them leaves true, whether they return or halt: labels only grow, by frames that were free, and a
used frame without a label is never written.
-/

namespace Hvos.Memory

open Radix Prog Function

variable {L : Type} {S : Scheme L (Fin 512)} {s s' s'' : Mem} {lab lab' lab'' : ℕ → Option L}

/-! ## Extensions -/

/-- **Tables and pages have been added.** -/
structure Extends (S : Scheme L (Fin 512)) (s s' : Mem) (lab lab' : ℕ → Option L) : Prop where
  typed : Typed S s' lab'
  keep : ∀ h l, lab h = some l → lab' h = some l
  fresh : ∀ h, lab h = none → lab' h ≠ none → s.pmm.Free h
  used : ∀ h, s.pmm.bitmapTest h = true → s'.pmm.bitmapTest h = true
  frames : ∀ h, s.pmm.bitmapTest h = true → lab h = none → s'.phys h = s.phys h
  foreign : ∀ h l i, lab h = some l → 2 ≤ S.level l → S.child l i = none →
    s'.entry h i = s.entry h i
  kids : ∀ h l i x, lab h = some l → 2 ≤ S.level l → s.next h i = some x → s'.next h i = some x
  large : ∀ h l i, lab' h = some l → 2 ≤ S.level l → (s'.entry h i).pat = true →
    lab h = some l ∧ (s.entry h i).pat = true
  totalPages : s'.pmm.totalPages = s.pmm.totalPages
  globals : SameGlobals s s'

theorem Extends.refl (h : Typed S s lab) : Extends S s s lab lab where
  typed := h
  keep _ _ := id
  fresh _ hn hne := absurd hn hne
  used _ := id
  frames _ _ _ := rfl
  foreign _ _ _ _ _ _ := rfl
  kids _ _ _ _ _ _ := id
  large _ _ _ hl _ hp := ⟨hl, hp⟩
  totalPages := rfl
  globals := .refl s

variable {f g root v : ℕ}

/-- A used frame gets no label. -/
theorem Extends.unlabelled (h : Extends S s s' lab lab') (hu : s.pmm.bitmapTest f = true)
    (hf : lab f = none) : lab' f = none := by
  by_contra hne
  have hfree := (h.fresh f hf hne).2.2
  rw [hu] at hfree
  cases hfree

theorem Extends.free (h : Extends S s s' lab lab') (hf : s'.pmm.Free f) : s.pmm.Free f := by
  obtain ⟨h1, hlt, hclear⟩ := hf
  refine ⟨h1, h.totalPages ▸ hlt, ?_⟩
  by_contra hset
  have hused := h.used f (by simpa using hset)
  rw [hclear] at hused
  cases hused

theorem Extends.trans (h : Extends S s s' lab lab') (h' : Extends S s' s'' lab' lab'') :
    Extends S s s'' lab lab'' where
  typed := h'.typed
  keep f l hl := h'.keep f l (h.keep f l hl)
  fresh f hf hne := by
    by_cases hf' : lab' f = none
    · exact h.free (h'.fresh f hf' hne)
    · exact h.fresh f hf hf'
  used f hf := h'.used f (h.used f hf)
  frames f hu hf := by
    rw [h'.frames f (h.used f hu) (h.unlabelled hu hf), h.frames f hu hf]
  foreign f l i hl hlevel hc := by
    rw [h'.foreign f l i (h.keep f l hl) hlevel hc, h.foreign f l i hl hlevel hc]
  kids f l i x hl hlevel hx := h'.kids f l i x (h.keep f l hl) hlevel (h.kids f l i x hl hlevel hx)
  large f l i hl hlevel hp := by
    obtain ⟨hl', hp'⟩ := h'.large f l i hl hlevel hp
    exact h.large f l i hl' hlevel hp'
  totalPages := h'.totalPages.trans h.totalPages
  globals := h.globals.trans h'.globals

theorem Grown.toExtends {gs : List ℕ} (h : Grown S s s' lab lab' gs) : Extends S s s' lab lab' where
  typed := h.typed
  keep := h.keep
  fresh f hf hne := ((h.new f hne).resolve_left (absurd hf) |> h.fresh f).1
  used f hf := (h.used f).2 (.inl hf)
  frames f hu hf := h.frames f hf fun hmem => by
    have hclear := (h.fresh f hmem).1.2.2
    rw [hu] at hclear
    cases hclear
  foreign f l i hl _ hc := h.foreign f l i hl hc
  kids f l i x hl _ := h.kids f i x (by simp [hl])
  large f l i hl _ hp := by
    have hnot : f ∉ gs := fun hmem => by
      rw [h.patNew f hmem i] at hp
      cases hp
    obtain ⟨l', hl'⟩ := Option.ne_none_iff_exists'.1 ((h.new f (by simp [hl])).resolve_right hnot)
    obtain rfl := Option.some.inj ((h.keep f l' hl').symm.trans hl)
    exact ⟨hl', by rwa [h.pat f i hnot] at hp⟩
  totalPages := h.totalPages
  globals := h.globals

/-- A free frame may be taken, and written, and labelled as a page. -/
theorem Typed.take (hT : Typed S s lab) {pmm : Pmm} (ha : s.pmm.pmmAlloc = some (g, pmm))
    {d : Option L} (hd : ∀ l, d = some l → S.level l = 0) :
    Extends S s { s with pmm := pmm } lab (update lab g d) := by
  obtain ⟨hfree, -, htot, -, htest⟩ := Pmm.pmmAlloc_eq_some ha
  have hnone := hT.fresh_of_pmmAlloc ha
  have hused : ∀ h, s.pmm.bitmapTest h = true → pmm.bitmapTest h = true := fun h hh => by
    rw [htest, hh, Bool.true_or]
  have hkeep : ∀ h l, lab h = some l → update lab g d h = some l := fun h l hl => by
    rwa [update_of_ne (hT.ne_of_pmmAlloc ha hl)]
  refine
    { typed := ⟨fun f l i l' x hf hl hx => ?_, fun f l hf => ?_⟩
      keep := hkeep
      fresh := fun h hn hne => ?_
      used := hused
      frames := fun _ _ _ => rfl
      foreign := fun _ _ _ _ _ _ => rfl
      kids := fun _ _ _ _ _ _ => id
      large := fun h l i hl hlevel hp => ?_
      totalPages := htot
      globals := ⟨rfl, rfl, rfl, rfl⟩ }
  · rcases eq_or_ne f g with rfl | hne
    · rw [update_self] at hf
      have hzero := hd l hf
      have hlevel := S.level_child hl
      omega
    · rw [update_of_ne hne] at hf
      exact hkeep x l' (hT.labelled f l i l' x hf hl hx)
  · rcases eq_or_ne f g with rfl | hne
    · simp [htest]
    · rw [update_of_ne hne] at hf
      exact hused f (hT.used f l hf)
  · rcases eq_or_ne h g with rfl | hgne
    · exact hfree
    · rw [update_of_ne hgne] at hne
      exact absurd hn hne
  · rcases eq_or_ne h g with rfl | hgne
    · rw [update_self] at hl
      have hzero := hd l hl
      omega
    · rw [update_of_ne hgne] at hl
      exact ⟨hl, hp⟩

variable {l l1 : L}

/-- The last-level write keeps everything else. -/
theorem Tabled.extends {gs : List ℕ} {pt : ℕ} {paddr flags : ℕ}
    (h : Tabled S s s' lab lab' gs root v pt l l1)
    (hT : Typed S (s'.mapLeaf pt v paddr flags) lab') :
    Extends S s (s'.mapLeaf pt v paddr flags) lab lab' := by
  have hext := h.grown.toExtends
  have hentry : ∀ f lf i, lab' f = some lf → 2 ≤ S.level lf →
      (s'.mapLeaf pt v paddr flags).entry f i = s'.entry f i := by
    intro f lf i hf hlevel
    have hne : f ≠ pt := by
      rintro rfl
      obtain rfl := Option.mem_unique hf h.label
      have hlast := h.last
      omega
    exact Mem.mapLeaf_entry_of_ne paddr flags fun h => hne h.1
  refine ⟨hT, hext.keep, hext.fresh, hext.used, fun f hu hf => ?_, fun f lf i hf hlevel hc => ?_,
    fun f lf i x hf hlevel hx => ?_, fun f lf i hf hlevel hp => ?_, hext.totalPages,
    hext.globals.trans ⟨rfl, rfl, rfl, rfl⟩⟩
  · have hne : f ≠ pt := by
      rintro rfl
      have hlab := hext.unlabelled hu hf
      rw [h.label] at hlab
      cases hlab
    rw [← hext.frames f hu hf]
    exact Mem.setEntry_phys_of_ne s' _ hne
  · rw [hentry f lf i (hext.keep f lf hf) hlevel, hext.foreign f lf i hf hlevel hc]
  · rw [Mem.next, hentry f lf i (hext.keep f lf hf) hlevel]
    exact hext.kids f lf i x hf hlevel hx
  · rw [hentry f lf i hf hlevel] at hp
    exact hext.large f lf i hf hlevel hp

/-! ## A fresh frame mapped -/

/-- **Frame `g` has been taken and mapped at `v` below `root`**, whose last-level table carries the
label `l1`. -/
structure Placed (S : Scheme L (Fin 512)) (s s' : Mem) (lab lab' : ℕ → Option L) (root v g : ℕ)
    (user : Bool) (l1 : L) : Prop extends Extends S s s' lab lab' where
  leaf : ∃ e, s'.walk root v = some e ∧ e.address.val = g ∧ e.us = user
  other : ∀ {r lr is lx} j, lab r = some lr → S.along lr is = some lx → S.level lx = 1 →
    lx ≠ l1 ∨ j ≠ ptIndex v →
      find s'.next s'.leaf (is ++ [j]) r = find s.next s.leaf (is ++ [j]) r
  free : s.pmm.Free g
  taken : s'.pmm.bitmapTest g = true
  data : lab' g = S.child l1 (ptIndex v)
  avail : ∀ n, s.pmm.Avail (n + 4) → s'.pmm.Avail n

/-- **`map_page` has halted**: tables may have been made, but no lookup sees them, and no frame is
left. -/
structure Stuck (S : Scheme L (Fin 512)) (s s' : Mem) (lab : ℕ → Option L) : Prop where
  extended : ∃ lab', Extends S s s' lab lab'
  lookups : ∀ {r lr is lx} j, lab r = some lr → S.along lr is = some lx → S.level lx = 1 →
    find s'.next s'.leaf (is ++ [j]) r = find s.next s.leaf (is ++ [j]) r
  exhausted : s'.pmm.pmmAlloc = none
  few : ¬s.pmm.Avail 4

/-- The label of the page, if it gets one, is that of a page. -/
theorem level_page (hone : S.level l1 = 1) (hl : S.child l1 (ptIndex v) = some l) :
    S.level l = 0 := by
  have hlevel := S.level_child hl
  omega

section Fresh

variable {root v g : ℕ} {pmm : Pmm} {flags : ℕ} {l l1 : L} {gs : List ℕ} (hT : Typed S s lab)
  (ha : s.pmm.pmmAlloc = some (g, pmm)) (hone : S.level l1 = 1)
include hT ha hone

/-- The tables for the page are there, and the page is written to the last. -/
theorem Tabled.placed (hn : s.pmm.Narrow 4) {pt : ℕ}
    (htab : Tabled S { s with pmm := pmm } s' (update lab g (S.child l1 (ptIndex v))) lab' gs
      root v pt l l1) :
    Placed S s (s'.mapLeaf pt v (g * 4096) flags) lab lab' root v g (pteUser flags) l1 := by
  have htake := hT.take ha fun l => level_page (v := v) hone
  have hsmall := hn.lt_frameLimit ha
  have hdiv : g * 4096 / 4096 = g := Nat.mul_div_cancel g (by decide)
  -- The frame is taken, so it is none of the new tables and keeps the label it got.
  have htaken : pmm.bitmapTest g = true := by
    rw [(Pmm.pmmAlloc_eq_some ha).2.2.2.2]
    simp
  have hdata : lab' g = S.child l1 (ptIndex v) := by
    have hself : update lab g (S.child l1 (ptIndex v)) g = S.child l1 (ptIndex v) :=
      update_self ..
    cases hc : S.child l1 (ptIndex v) with
    | none =>
      rw [hc] at hself
      exact htab.grown.toExtends.unlabelled htaken (by rwa [hc])
    | some l0 =>
      rw [hc] at hself
      exact htab.grown.keep g l0 (by rwa [hc])
  have hT' := htab.typed (g * 4096) flags fun l' hl' => by
    rw [hdiv]
    exact ⟨hsmall, hdata.trans hl'⟩
  refine ⟨htake.trans (htab.extends hT'), ⟨_, htab.walk_self _ flags, ?_, rfl⟩, ?_,
    (Pmm.pmmAlloc_eq_some ha).1, htab.grown.used g |>.2 (.inl htaken), hdata, fun n hn4 => ?_⟩
  · rw [Pte.point_address (by rwa [hdiv]), hdiv]
  · intro r lr is lx j hr hal' hlx hne
    refine htab.find_other _ flags j (htake.keep r lr hr) hal' hlx ?_
    rintro ⟨hd, rfl⟩
    refine hne.elim (fun hlne => hlne ?_) fun h => h rfl
    have hlab := htab.grown.typed.labelled.descend
      (htab.grown.keep r lr (htake.keep r lr hr)) hal' hd
    exact Option.mem_unique hlab htab.label
  · have hlen := htab.length
    have hav : pmm.Avail (n + 3) := Pmm.Avail.take hn4 ha
    exact htab.grown.avail n (hav.mono (by omega))

/-- Some of the tables are there, and no frame for the others. -/
theorem Grown.stuck
    (hgrown : Grown S { s with pmm := pmm } s' (update lab g (S.child l1 (ptIndex v))) lab' gs)
    (hlen : gs.length ≤ 2) (hnone : s'.pmm.pmmAlloc = none) : Stuck S s s' lab := by
  have htake := hT.take ha fun l => level_page (v := v) hone
  refine ⟨⟨lab', htake.trans hgrown.toExtends⟩, fun {r lr} is lx j hr => ?_, hnone, fun hav => ?_⟩
  · exact hgrown.lookups j (htake.keep r lr hr)
  · exact Pmm.not_avail_of_pmmAlloc hnone (hgrown.avail 1 ((hav.take ha).mono (by omega)))

end Fresh

/-- **`pmm_alloc`, then `map_page`.** -/
theorem mapFresh_spec {pmm : Pmm} (flags : ℕ) (hT : Typed S s lab)
    (ha : s.pmm.pmmAlloc = some (g, pmm)) (hroot : lab root = some l)
    (hal : S.along l (upperPath v) = some l1) (hone : S.level l1 = 1) (hn : s.pmm.Narrow 4) :
    Ensures (mapPage root v (g * 4096) flags) { s with pmm := pmm }
      (fun _ s' => ∃ lab', Placed S s s' lab lab' root v g (pteUser flags) l1)
      (fun s' => Stuck S s s' lab) := by
  have htake := hT.take ha fun l => level_page (v := v) hone
  refine (mapPage_tabled (g * 4096) flags htake.typed (htake.keep root l hroot) hal hone
    (hn.pmmAlloc ha)).mono ?_ ?_
  · rintro - s' ⟨s3, lab', gs, pt, htab, rfl⟩
    exact ⟨lab', htab.placed hT ha hone hn⟩
  · rintro s' ⟨lab', gs, hgrown, hlen, hnone⟩
    exact hgrown.stuck hT ha hone hlen hnone

/-- A page that is written is no table. -/
theorem Mem.setFrame_tables (pg : Page) (hg : ∀ l, lab g = some l → S.level l = 0)
    (hf : lab f = some l) (hl : 0 < S.level l) :
    (s.setFrame g pg).entry f = s.entry f ∧ (s.setFrame g pg).next f = s.next f ∧
      (s.setFrame g pg).leaf f = s.leaf f := by
  have hne : f ≠ g := by
    rintro rfl
    have hzero := hg l hf
    omega
  have hentry : (s.setFrame g pg).entry f = s.entry f := by
    funext i
    rw [entry, setFrame_phys_of_ne _ _ hne, entry]
  refine ⟨hentry, ?_, ?_⟩
  · funext i
    rw [next, hentry, next]
  · funext i
    rw [leaf, hentry, leaf]

/-- **The page may then be written.** -/
theorem Placed.fill {user : Bool} (h : Placed S s s' lab lab' root v g user l1)
    (hroot : lab root = some l) (hal : S.along l (upperPath v) = some l1) (hone : S.level l1 = 1)
    (pg : Page) : Placed S s (s'.setFrame g pg) lab lab' root v g user l1 := by
  have hg : ∀ l, lab' g = some l → S.level l = 0 := fun l hl => by
    have hlevel := S.level_child (h.data.symm.trans hl)
    omega
  have htable := fun {f l} => Mem.setFrame_tables (s := s') (S := S) (f := f) (l := l) pg hg
  have hkid := fun f l hf hl => (htable (f := f) (l := l) hf hl).2.1
  have hleaf := fun f l hf hl => (htable (f := f) (l := l) hf hl).2.2
  have hT := h.typed.labelled
  refine
    { typed := ⟨hT.congr hkid, h.typed.used⟩
      keep := h.keep
      fresh := h.fresh
      used := h.used
      frames := fun f hu hf => ?_
      foreign := fun f lf i hf hlevel hc => ?_
      kids := fun f lf i x hf hlevel hx => ?_
      large := fun f lf i hf hlevel hp => ?_
      totalPages := h.totalPages
      globals := h.globals.trans ⟨rfl, rfl, rfl, rfl⟩
      leaf := ?_
      other := fun j hr hal' hlx hne => ?_
      free := h.free
      taken := h.taken
      data := h.data
      avail := h.avail }
  · have hne : f ≠ g := by
      rintro rfl
      rw [h.free.2.2] at hu
      cases hu
    rw [Mem.setFrame_phys_of_ne _ _ hne, h.frames f hu hf]
  · rw [(htable (h.keep f lf hf) (by omega)).1, h.foreign f lf i hf hlevel hc]
  · rw [hkid f lf (h.keep f lf hf) (by omega)]
    exact h.kids f lf i x hf hlevel hx
  · rw [(htable hf (by omega)).1] at hp
    exact h.large f lf i hf hlevel hp
  · rw [Mem.walk, hT.find_congr hkid hleaf _ (h.keep root l hroot) hal (by omega)]
    exact h.leaf
  · rw [hT.find_congr hkid hleaf j (h.keep _ _ hr) hal' (by omega), h.other j hr hal' hlx hne]

end Hvos.Memory
