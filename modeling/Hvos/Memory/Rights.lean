import Hvos.Memory.Translation

/-!
# Memory/Rights — what `map_page` grants

The rights at a page are the conjunction of the four entries a walk takes.  `map_page` writes `rw`
as 1 and leaves `pcd` alone, whatever its flags say, and gives `us` only to the entries it makes: an
entry that stands on the way from an earlier call keeps its own.  So the rights asked for are
granted exactly if `PTE_WRITABLE` is asked for, `PTE_PCD` is not, and `PTE_USER` only where every
standing entry has it (`mapPage_grants_iff`).
-/

namespace Hvos.Memory

open Radix Prog Function

/-! ## Rights along a walk -/

namespace Mem

/-- The entries a walk takes, if all are present. -/
def trail (s : Mem) : List (Fin 512) → ℕ → Option (List Pte)
  | [], _ => some []
  | i :: is, f =>
    if (s.entry f i).present then
      (s.trail is (s.entry f i).address.val).map (s.entry f i :: ·)
    else none

/-- The entries a walk takes before the first that is absent. -/
def standing (s : Mem) : List (Fin 512) → ℕ → List Pte
  | [], _ => []
  | i :: is, f =>
    if (s.entry f i).present then s.entry f i :: s.standing is (s.entry f i).address.val else []

end Mem

/-- The effective rights at a page, and how its last-level entry is cached. -/
structure Rights where
  user : Bool
  writable : Bool
  uncached : Bool
  deriving DecidableEq

/-- The rights the entries of a walk come to. -/
def Rights.ofTrail (es : List Pte) : Rights where
  user := es.all Pte.us
  writable := es.all Pte.rw
  uncached := (es.getLast?.map Pte.pcd).getD false

/-- The effective rights at `v`. -/
def Mem.rights (s : Mem) (root v : ℕ) : Option Rights :=
  (s.trail (upperPath v ++ [ptIndex v]) root).map .ofTrail

/-- `PTE_WRITABLE`. -/
def pteWritable (flags : ℕ) : Bool := flags / 2 % 2 = 1

/-- `PTE_PCD`. -/
def ptePcd (flags : ℕ) : Bool := flags / 2 ^ 4 % 2 = 1

/-- The rights the flags ask for. -/
def Rights.asked (flags : ℕ) : Rights := ⟨pteUser flags, pteWritable flags, ptePcd flags⟩

/-! ## Tables made by `map_page` -/

variable {L : Type} {S : Scheme L (Fin 512)} {s s' : Mem} {lab lab' : ℕ → Option L}

/-- **Tables that `map_page` has made**: what is present is writable, and nothing is uncached. -/
structure Sturdy (S : Scheme L (Fin 512)) (s : Mem) (lab : ℕ → Option L) : Prop where
  typed : Typed S s lab
  rw : ∀ f l i, lab f = some l → (s.entry f i).present = true → (s.entry f i).rw = true
  pcd : ∀ f l i, lab f = some l → S.level l = 1 → (s.entry f i).pcd = false

variable {l l1 : L} {f g v root : ℕ}

theorem Sturdy.graft (h : Sturdy S s lab) {i : Fin 512} (user : Bool) {pmm : Pmm}
    (ha : s.pmm.pmmAlloc = some (g, pmm)) (hsmall : g < Pmm.frameLimit)
    (habs : (s.entry f i).present = false) {l' : L} (hf : lab f = some l) (hlevel : 2 ≤ S.level l)
    (hl : S.child l i = some l') : Sturdy S (s.graft pmm f i user g) (update lab g (some l')) := by
  have hne := h.typed.ne_of_pmmAlloc ha hf
  refine ⟨(grown_graft h.typed ha hsmall habs hf hlevel hl).typed, fun x lx j hx hp => ?_,
    fun x lx j hx hone => ?_⟩
  · rcases eq_or_ne x g with rfl | hg
    · rw [Mem.graft_entry_new hne] at hp
      cases hp
    · rw [update_of_ne hg] at hx
      by_cases hhere : x = f ∧ j = i
      · obtain ⟨rfl, rfl⟩ := hhere
        rw [Mem.graft_entry_here]
        rfl
      · rw [Mem.graft_entry_other hg hhere] at hp ⊢
        exact h.rw x lx j hx hp
  · rcases eq_or_ne x g with rfl | hg
    · rw [Mem.graft_entry_new hne]
      rfl
    · rw [update_of_ne hg] at hx
      have hhere : ¬(x = f ∧ j = i) := by
        rintro ⟨rfl, -⟩
        obtain rfl := Option.mem_unique hf hx
        omega
      rw [Mem.graft_entry_other hg hhere]
      exact h.pcd x lx j hx hone

theorem Sturdy.mapLeaf (h : Sturdy S s lab) {pt : ℕ} (paddr flags : ℕ) (hpt : lab pt = some l1)
    (hlast : S.child l1 (ptIndex v) = none) : Sturdy S (s.mapLeaf pt v paddr flags) lab := by
  refine ⟨⟨?_, h.typed.used⟩, fun x lx j hx hp => ?_, fun x lx j hx hone => ?_⟩
  · refine h.typed.labelled.written (written_mapLeaf ..) fun l l' g hl hl' _ => ?_
    obtain rfl := Option.mem_unique hpt hl
    rw [hlast] at hl'
    cases hl'
  · by_cases hhere : x = pt ∧ j = ptIndex v
    · obtain ⟨rfl, rfl⟩ := hhere
      rw [Mem.mapLeaf_entry_self]
      rfl
    · rw [Mem.mapLeaf_entry_of_ne paddr flags hhere] at hp ⊢
      exact h.rw x lx j hx hp
  · by_cases hhere : x = pt ∧ j = ptIndex v
    · obtain ⟨rfl, rfl⟩ := hhere
      rw [Mem.mapLeaf_entry_self]
      exact h.pcd x lx _ hx hone
    · rw [Mem.mapLeaf_entry_of_ne paddr flags hhere]
      exact h.pcd x lx j hx hone

/-! ## The upper levels -/

/-- The first three levels of `map_page`, for any path. -/
def makeTables (user : Bool) : List (Fin 512) → ℕ → Prog Mem ℕ
  | [], f => pure f
  | i :: is, f => nextTable f i user >>= makeTables user is

/-- Where the tables for a path have been made. -/
structure Made (S : Scheme L (Fin 512)) (user : Bool) (s s' : Mem) (lab lab' : ℕ → Option L)
    (is : List (Fin 512)) (f f' : ℕ) (l1 : L) (es : List Pte) : Prop where
  sturdy : Sturdy S s' lab'
  keep : ∀ h l, lab h = some l → lab' h = some l
  stays : ∀ h l j, lab h = some l → (s.entry h j).present = true → s'.entry h j = s.entry h j
  totalPages : s'.pmm.totalPages = s.pmm.totalPages
  label : lab' f' = some l1
  table : descend s'.next is f = some f'
  trail : s'.trail is f = some es
  us : (∀ e ∈ es, e.us = true) ↔
    (∀ e ∈ s.standing is f, e.us = true) ∧ ((s.standing is f).length = is.length ∨ user = true)

section Make

variable {user : Bool} {is : List (Fin 512)} {f f' : ℕ} {i : Fin 512} {l1 : L} {es : List Pte}

/-- A fresh table is where a walk ends. -/
theorem Mem.graft_standing {pmm : Pmm} (hne : f ≠ g) (is : List (Fin 512)) :
    (s.graft pmm f i user g).standing is g = [] := by
  cases is with
  | nil => rfl
  | cons j is => rw [standing, graft_entry_new hne, if_neg (by decide)]

/-- An entry in front of a path. -/
theorem Made.cons_table {a : ℕ} (h : Made S user s s' lab lab' is a f' l1 es) (hf : lab f = some l)
    (hp : (s.entry f i).present = true) (ha : (s.entry f i).address.val = a) :
    descend s'.next (i :: is) f = some f' ∧ s'.trail (i :: is) f = some (s.entry f i :: es) := by
  have hentry := h.stays f l i hf hp
  have hnext : s'.next f i = some a := by rw [Mem.next, hentry, if_pos hp, ha]
  constructor
  · rw [descend, hnext, Option.bind_some, h.table]
  · rw [Mem.trail, hentry, if_pos hp, ha, h.trail, Option.map_some]

/-- **The tables for a path**: those that stand are followed, the others are made. -/
theorem makeTables_made (user : Bool) (h : Sturdy S s lab) (hf : lab f = some l)
    (hal : S.along l is = some l1) (hone : 1 ≤ S.level l1)
    (hn : s.pmm.totalPages ≤ Pmm.frameLimit) : Ensures (makeTables user is f) s
      (fun f' s' => ∃ lab' es, Made S user s s' lab lab' is f f' l1 es)
      (fun s' => s'.pmm.pmmAlloc = none) := by
  induction is generalizing s lab f l with
  | nil =>
    cases hal
    exact ensures_pure ⟨lab, [], h, fun _ _ => id, fun _ _ _ _ _ => rfl, rfl, hf, rfl, rfl,
      by simp [Mem.standing]⟩
  | cons i is ih =>
    obtain ⟨l2, hl2, hal⟩ := Option.bind_eq_some_iff.1 hal
    have hlevel := S.level_child hl2
    have hbelow := S.level_along hal
    cases hp : (s.entry f i).present with
    | true =>
      have hnext : s.next f i = some (s.entry f i).address.val := by rw [Mem.next, if_pos hp]
      have hkid := h.typed.labelled f l i l2 _ hf hl2 hnext
      refine ensures_bind (ensures_of_done (nextTable_present hp) ((ih h hkid hal hn).imp ?_))
      rintro f' s' ⟨lab', es, hm⟩
      obtain ⟨htable, htrail⟩ := hm.cons_table hf hp rfl
      refine ⟨lab', _, hm.sturdy, hm.keep, hm.stays, hm.totalPages, hm.label, htable, htrail, ?_⟩
      rw [List.forall_mem_cons, hm.us, Mem.standing, if_pos hp, List.forall_mem_cons, and_assoc]
      simp
    | false =>
      cases ha : s.pmm.pmmAlloc with
      | none =>
        rw [makeTables, Ensures, bind_apply, nextTable_halt hp ha]
        exact ha
      | some r =>
        obtain ⟨g, pmm⟩ := r
        obtain ⟨hfree, -, htot, -⟩ := Pmm.pmmAlloc_eq_some ha
        have hsmall : g < Pmm.frameLimit := lt_of_lt_of_le hfree.2.1 hn
        have hne := h.typed.ne_of_pmmAlloc ha hf
        have hold : ∀ x lx, lab x = some lx → x ≠ g := fun x lx hx =>
          h.typed.ne_of_pmmAlloc ha hx
        have hhere : (s.graft pmm f i user g).entry f i = (s.entry f i).point user g :=
          Mem.graft_entry_here
        refine ensures_bind (ensures_of_done (nextTable_graft hp ha hne hsmall)
          ((ih (h.graft user ha hsmall hp hf (by omega) hl2) (update_self ..) hal
            (htot.trans_le hn)).imp ?_))
        rintro f' s' ⟨lab', es, hm⟩
        have hlab : ∀ x lx, lab x = some lx → update lab g (some l2) x = some lx :=
          fun x lx hx => by rwa [update_of_ne (hold x lx hx)]
        obtain ⟨htable, htrail⟩ := hm.cons_table (hlab f l hf) (by rw [hhere]; rfl)
          (by rw [hhere, Pte.point_address hsmall])
        refine ⟨lab', _, hm.sturdy, fun x lx hx => hm.keep x lx (hlab x lx hx),
          fun x lx j hx hpx => ?_, hm.totalPages.trans htot, hm.label, htable, htrail, ?_⟩
        · have hother : ¬(x = f ∧ j = i) := by
            rintro ⟨rfl, rfl⟩
            rw [hp] at hpx
            cases hpx
          have hsame : (s.graft pmm f i user g).entry x j = s.entry x j :=
            Mem.graft_entry_other (hold x lx hx) hother
          rw [hm.stays x lx j (hlab x lx hx) (by rw [hsame]; exact hpx), hsame]
        · rw [List.forall_mem_cons, hm.us, Mem.graft_standing hne, Mem.standing, hp,
            if_neg Bool.false_ne_true, hhere]
          have hus : ((s.entry f i).point user g).us = user := rfl
          rw [hus]
          simp +contextual

/-- One more entry at the end of a walk. -/
theorem Mem.trail_snoc {is : List (Fin 512)} {f' : ℕ} {es : List Pte} {j : Fin 512}
    (ht : s.trail is f = some es) (hd : descend s.next is f = some f')
    (hp : (s.entry f' j).present = true) : s.trail (is ++ [j]) f = some (es ++ [s.entry f' j]) := by
  induction is generalizing f es with
  | nil =>
    cases ht
    cases hd
    rw [List.nil_append, trail, if_pos hp]
    rfl
  | cons i is ih =>
    obtain ⟨a, ha, hd⟩ := Option.bind_eq_some_iff.1 hd
    rw [trail] at ht
    rw [Mem.next] at ha
    split_ifs at ht ha with hi
    cases ha
    obtain ⟨es', ht', rfl⟩ := Option.map_eq_some_iff.1 ht
    rw [List.cons_append, trail, if_pos hi, ih ht' hd]
    rfl

/-- A walk above the last level looks only at tables above the last level. -/
theorem trail_congr (h : Labelled S s.next lab)
    (hsame : ∀ x lx j, lab x = some lx → 2 ≤ S.level lx → s'.entry x j = s.entry x j)
    {is : List (Fin 512)} (hf : lab f = some l) (hal : S.along l is = some l1)
    (hone : 1 ≤ S.level l1) : s'.trail is f = s.trail is f := by
  induction is generalizing f l with
  | nil => rfl
  | cons i is ih =>
    obtain ⟨l2, hl2, hal⟩ := Option.bind_eq_some_iff.1 hal
    have hlevel := S.level_child hl2
    have hbelow := S.level_along hal
    rw [Mem.trail, Mem.trail, hsame f l i hf (by omega)]
    by_cases hp : (s.entry f i).present = true
    · have hnext : s.next f i = some (s.entry f i).address.val := by rw [Mem.next, if_pos hp]
      rw [if_pos hp, if_pos hp, ih (h f l i l2 _ hf hl2 hnext) hal]
    · rw [if_neg hp, if_neg hp]

/-- All along a walk through such tables there is the right to write. -/
theorem Sturdy.trail_rw (h : Sturdy S s lab) {is : List (Fin 512)} {es : List Pte}
    (hf : lab f = some l) (hal : S.along l is = some l1) (ht : s.trail is f = some es) :
    ∀ e ∈ es, e.rw = true := by
  induction is generalizing f l es with
  | nil =>
    cases ht
    exact fun e he => by cases he
  | cons i is ih =>
    obtain ⟨l2, hl2, hal⟩ := Option.bind_eq_some_iff.1 hal
    rw [Mem.trail] at ht
    split_ifs at ht with hp
    obtain ⟨es', ht', rfl⟩ := Option.map_eq_some_iff.1 ht
    have hnext : s.next f i = some (s.entry f i).address.val := by rw [Mem.next, if_pos hp]
    exact List.forall_mem_cons.2 ⟨h.rw f l i hf hp,
      ih (h.typed.labelled f l i l2 _ hf hl2 hnext) hal ht'⟩

end Make

/-! ## `map_page` -/

theorem mapPage_eq_makeTables (root v paddr flags : ℕ) :
    mapPage root v paddr flags = makeTables (pteUser flags) (upperPath v) root >>= fun pt =>
      Prog.modify fun s => s.mapLeaf pt v paddr flags := by
  simp only [makeTables, upperPath, bind_assoc, pure_bind]
  rfl

/-- **What `map_page` leaves**: rights to write, cached, and to the user as far as the flags and the
entries that stood allow; and again tables made by `map_page`. -/
theorem mapPage_rights (paddr flags : ℕ) (h : Sturdy S s lab) (hroot : lab root = some l)
    (hal : S.along l (upperPath v) = some l1) (hone : S.level l1 = 1)
    (hlast : S.child l1 (ptIndex v) = none) (hn : s.pmm.totalPages ≤ Pmm.frameLimit) :
    Ensures (mapPage root v paddr flags) s
      (fun _ s' => (∃ lab', Sturdy S s' lab' ∧ lab' root = some l) ∧
        s'.pmm.totalPages = s.pmm.totalPages ∧
        ∃ r, s'.rights root v = some r ∧ r.writable = true ∧ r.uncached = false ∧
          (r.user = true ↔ pteUser flags = true ∧
            ∀ e ∈ s.standing (upperPath v) root, e.us = true))
      (fun s' => s'.pmm.pmmAlloc = none) := by
  rw [mapPage_eq_makeTables]
  refine (makeTables_made (pteUser flags) h hroot hal hone.ge hn).bind ?_
  rintro pt s3 ⟨lab', es, hm⟩
  have hsturdy := hm.sturdy.mapLeaf paddr flags hm.label hlast
  have hroot' := hm.keep root l hroot
  refine ensures_modify ⟨⟨lab', hsturdy, hroot'⟩, hm.totalPages, ?_⟩
  -- Only the table in `pt` is written, and it is at the last level.
  have hsame : ∀ x lx j, lab' x = some lx → 2 ≤ S.level lx →
      (s3.mapLeaf pt v paddr flags).entry x j = s3.entry x j := by
    intro x lx j hx hlevel
    refine Mem.mapLeaf_entry_of_ne paddr flags ?_
    rintro ⟨rfl, -⟩
    obtain rfl := Option.mem_unique hm.label hx
    omega
  have htrail := (trail_congr hm.sturdy.typed.labelled hsame hroot' hal hone.ge).trans hm.trail
  have htable := (descend_written hm.sturdy.typed.labelled (written_mapLeaf (v := v) paddr flags)
    hm.label hroot' hal le_rfl).trans hm.table
  have hleaf : (s3.mapLeaf pt v paddr flags).entry pt (ptIndex v) = _ :=
    Mem.mapLeaf_entry_self paddr flags
  have hrights : (s3.mapLeaf pt v paddr flags).rights root v = some (.ofTrail (es ++
      [(s3.entry pt (ptIndex v)).point (pteUser flags) (paddr / 4096)])) := by
    rw [Mem.rights, Mem.trail_snoc htrail htable (by rw [hleaf]; rfl), hleaf]
    rfl
  refine ⟨_, hrights, ?_, ?_, ?_⟩
  · have hrw := hm.sturdy.trail_rw hroot' hal hm.trail
    simpa [Rights.ofTrail, Pte.point] using hrw
  · have hpcd := hm.sturdy.pcd pt l1 (ptIndex v) hm.label hone
    simpa [Rights.ofTrail, Pte.point] using hpcd
  · have hus : (Rights.ofTrail (es ++ [(s3.entry pt (ptIndex v)).point (pteUser flags)
        (paddr / 4096)])).user = true ↔ (∀ e ∈ es, e.us = true) ∧ pteUser flags = true := by
      simp [Rights.ofTrail, Pte.point]
    rw [hus, hm.us]
    tauto

/-! ## From an empty PML4 -/

/-- **A hierarchy that `map_page` has built** below a PML4 that started empty, whatever frames were
allocated in between. -/
inductive Built (root : ℕ) : Mem → Prop
  | empty {s : Mem} (hzero : s.phys root = Page.zero) (hused : s.pmm.bitmapTest root = true)
      (htotal : s.pmm.totalPages ≤ Pmm.frameLimit) : Built root s
  | alloc {s s' : Mem} {g : ℕ} (h : Built root s) (ha : pmmAlloc s = .done (some g) s') :
      Built root s'
  | map {s s' : Mem} {v paddr flags : ℕ} (h : Built root s)
      (hm : mapPage root v paddr flags s = .done () s') : Built root s'

/-- Whole paths lead to last-level tables. -/
theorem pathScheme_upperPath (v : ℕ) : pathScheme.along [] (upperPath v) = some (upperPath v) ∧
      pathScheme.level (upperPath v) = 1 ∧
      ∀ j, pathScheme.child (upperPath v) j = none :=
  ⟨pathScheme_along (Nat.le_refl 3), rfl, fun _ => rfl⟩

theorem Built.sturdy (h : Built root s) :
    (∃ lab, Sturdy pathScheme s lab ∧ lab root = some []) ∧
      s.pmm.totalPages ≤ Pmm.frameLimit := by
  induction h with
  | @empty s hzero hused htotal =>
    have hentry : ∀ i, s.entry root i = .ofRaw 0 := fun i => by
      rw [Mem.entry, hzero, Page.entry_zero]
    have honly : ∀ f l, (if f = root then some ([] : List (Fin 512)) else none) = some l →
        f = root := by
      intro f l hl
      split_ifs at hl with hf
      exact hf
    refine ⟨⟨fun f => if f = root then some [] else none,
      ⟨⟨fun f l i l' g hf _ hg => ?_, fun f l hf => ?_⟩, fun f l i hf hp => ?_,
        fun f l i hf _ => ?_⟩, if_pos rfl⟩, htotal⟩
    all_goals obtain rfl := honly f l hf
    · rw [Mem.next, hentry, if_neg (by decide)] at hg
      cases hg
    · exact hused
    · rw [hentry] at hp
      cases hp
    · rw [hentry]
      rfl
  | @alloc s s' g _ ha ih =>
    obtain ⟨⟨lab, hs, hroot⟩, hn⟩ := ih
    cases hpmm : s.pmm.pmmAlloc with
    | none =>
      rw [pmmAlloc, hpmm] at ha
      cases ha
    | some r =>
      rw [pmmAlloc, hpmm] at ha
      cases ha
      obtain ⟨-, -, htot, -, htest⟩ := Pmm.pmmAlloc_eq_some hpmm
      have hused : ∀ f l, lab f = some l → r.2.bitmapTest f = true := fun f l hf => by
        rw [htest, hs.typed.used f l hf, Bool.true_or]
      exact ⟨⟨lab, ⟨⟨hs.typed.labelled, hused⟩, hs.rw, hs.pcd⟩, hroot⟩, htot.trans_le hn⟩
  | @map s s' v paddr flags _ hm ih =>
    obtain ⟨⟨lab, hs, hroot⟩, hn⟩ := ih
    obtain ⟨hal, hone, hlast⟩ := pathScheme_upperPath v
    obtain ⟨hs', htot, -⟩ :=
      (mapPage_rights paddr flags hs hroot hal hone (hlast _) hn).apply hm
    exact ⟨hs', htot.trans_le hn⟩

end Hvos.Memory
