import Hvos.Fs.Names

/-!
# Fs/Strays — dentries that no directory has

The tree keeps its shape (`treeShape_of_run`), but not every dentry on the heap is in it:
`vfs_mkdir` never frees the search key of a name it does not find, and `vfs_create` leaves its new
dentry where the directory is full.  Nobody frees such a dentry later, so the calls that make none
are exactly those that keep the whole shape (`wholeShape_iff_tidy`).
-/

namespace Hvos.Fs

open Prog

variable {K : Kmalloc} {N : Nodes} {s s' : FsState} {path : Option CString} {mode : UInt32} {r : ℤ}

/-- **The whole shape**: every dentry other than the root is linked exactly once, below its
`d_parent`. -/
structure WholeShape (s : FsState) : Prop extends TreeShape s where
  linked : ∀ p d, s.heap.get p = some (.dentry d) → p ≠ s.rootDentry →
    ∃ a k, Slot s a k p ∧ DataOf s d.dParent a ∧ ∀ a' k', Slot s a' k' p → a' = a ∧ k' = k

/-- No dentry is without an inode. -/
def NoStray (s : FsState) : Prop := ∀ p, ¬Stray s p

/-- On a tree that is the whole shape. -/
theorem Holds.wholeShape_iff (h : Holds N s) : WholeShape s ↔ NoStray s := by
  constructor
  · rintro hs p ⟨d, hp, hd⟩
    have hroot : p ≠ s.rootDentry := by
      rintro rfl
      obtain ⟨n, hn, -⟩ := h.wf.rooted.exists_root
      have heq := h.root
      rw [hn] at heq
      have hmem := List.mem_of_mem_head? hn
      rw [← Option.some.inj heq, (h.placed n hmem).dentry] at hp
      cases hp
      exact h.wf.ptr_ne_zero hmem n.inode_mem hd
    obtain ⟨a, k, hslot, -⟩ := hs.linked p d hp hroot
    exact hs.unlinked p d hp hd a k hslot
  · intro hs
    exact ⟨h.treeShape, fun p d hp hroot =>
      h.treeShape.once p d hp hroot fun hd => hs p ⟨d, hp, hd⟩⟩

/-! ## Who leaves strays -/

theorem Leaves.noStray_iff {ps : List Ptr} (h : Leaves s s' ps) :
    NoStray s' ↔ NoStray s ∧ ps = [] := by
  simp only [NoStray, h _, not_or, forall_and, List.eq_nil_iff_forall_not_mem]

/-- `vfs_mkdir` does not get past the lookup of a free name. -/
def Nodes.NoNewDir (N : Nodes) (path : Option CString) : Prop :=
  ∀ q name, N.target path 64 = some (q, name) → N.child q (name.take 31) ≠ none

/-- `vfs_create` does not meet a full directory. -/
def Nodes.NotFull (N : Nodes) (path : Option CString) : Prop :=
  ∀ q name, N.target path 32 = some (q, name) → N.Room q

theorem vfsMkdir_noStray (h : Holds N s) (hrun : vfsMkdir K path mode s = .done r s') :
    NoStray s' ↔ NoStray s ∧ N.NoNewDir path := by
  rcases (vfsMkdir_ledger h path mode).apply hrun with
    ⟨hnone, -, hs⟩ | ⟨q, name, ht, ⟨htaken, -, hs⟩ |
      ⟨hnew, -, -, key, -, -, -, -, -, hleaves, -⟩ | ⟨hnew, -, -, -, key, -, hleaves⟩⟩
  · rw [hs.leaves.noStray_iff]
    exact and_congr_right fun _ => iff_of_true rfl fun q name ht => by simp [hnone] at ht
  · rw [hs.leaves.noStray_iff]
    refine and_congr_right fun _ => iff_of_true rfl fun q' name' ht' => ?_
    obtain ⟨rfl, rfl⟩ := Prod.mk.inj (Option.mem_unique ht ht')
    exact htaken
  all_goals
    rw [hleaves.noStray_iff]
    exact and_congr_right fun _ => iff_of_false (List.cons_ne_nil key []) fun hall =>
      hall q name ht hnew

theorem vfsCreate_noStray (h : Holds N s) (hrun : vfsCreate K path mode s = .done r s') :
    NoStray s' ↔ NoStray s ∧ N.NotFull path := by
  rcases (vfsCreate_ledger h path mode).apply hrun with
    ⟨hnone, -, hs⟩ | ⟨q, name, ht, ⟨hroom, -, -, -, -, -, -, hleaves, -⟩ |
      ⟨hfull, -, -, p, -, hleaves⟩⟩
  · rw [hs.leaves.noStray_iff]
    exact and_congr_right fun _ => iff_of_true rfl fun q name ht => by simp [hnone] at ht
  · rw [hleaves.noStray_iff]
    refine and_congr_right fun _ => iff_of_true rfl fun q' name' ht' => ?_
    obtain ⟨rfl, -⟩ := Prod.mk.inj (Option.mem_unique ht ht')
    exact hroom
  · rw [hleaves.noStray_iff]
    exact and_congr_right fun _ => iff_of_false (List.cons_ne_nil p []) fun hall =>
      hfull (hall q name ht)

/-- What leaves no stray. -/
def tidyGuards : Guards := ⟨Nodes.NoNewDir, Nodes.NotFull⟩

theorem noStray_guarded (K : Kmalloc) : Guarded K tidyGuards NoStray where
  mkdir hN hrun := vfsMkdir_noStray hN hrun
  create hN hrun := vfsCreate_noStray hN hrun
  fill {N s s' path data n u} hN hn hrun := by
    rcases (fillFile_spec hN path data hn).apply hrun with
      ⟨m, size, f0, c0, f, c, -, -, -, -, hleaves, -⟩ | ⟨-, hs⟩
    · simp [hleaves.noStray_iff]
    · simp [hs.leaves.noStray_iff]
  same _ hs := by simp [hs.leaves.noStray_iff]
  opened _ _ hleaves := by simp [hleaves.noStray_iff]

theorem ramfsInit_noStray : Ensures (ramfsInit K) .boot (fun _ => NoStray) (Refused K) := by
  unfold ramfsInit
  refine ensures_bind (ensures_kmalloc fun ino hino _ => ?_)
  refine ensures_bind (ensures_kmalloc fun data _ _ => ensures_modify_bind ?_)
  refine ensures_bind (ensures_kmalloc fun root _ _ => ensures_modify ?_)
  rintro p ⟨d, hp, hd⟩
  simp only [Heap.get_set, Function.update_apply] at hp
  split_ifs at hp
  · cases hp
    exact hino hd
  all_goals cases hp

/-! ## Every run -/

/-- **A call that leaves no stray**: no `vfs_mkdir` in it gets past the lookup of a free name, and
no `vfs_create` meets a full directory. -/
def Tidy (K : Kmalloc) : Call → FsState → Prop := tidyGuards.OnCall K

/-- **The whole shape is there exactly if every call was tidy**, in the state it was made in; a
member of an archive counts as a call. -/
theorem wholeShape_iff_tidy {s0 : FsState} {cs : List Call}
    (hinit : ramfsInit K .boot = .done () s0) (h : Run (callStep K) s0 cs s) : WholeShape s ↔
      ∀ cs1 c cs2 t, cs = cs1 ++ c :: cs2 → Run (callStep K) s0 cs1 t → Tidy K c t := by
  obtain ⟨N, hN⟩ := planted_of_run hinit h
  rw [hN.wholeShape_iff]
  exact (noStray_guarded K).of_run hinit (ramfsInit_noStray.apply hinit) h

/-- One file in an empty file system. -/
theorem wholeShape_iff_tidy_createF :
    ∃ s, Run (callStep .endless) emptyFs [createF] s ∧ WholeShape s := by
  have hrun : Run (callStep .endless) emptyFs [createF] _ := .of_exec rfl
  refine ⟨_, hrun, (wholeShape_iff_tidy rfl hrun).2 fun _ _ _ _ => Run.of_single ?_⟩
  intro N hN q name hname
  obtain ⟨hq, hdir⟩ := Nodes.target_mem hname
  have hnil := List.map_eq_nil_iff.1 (emptyFs_names hN hq hdir)
  simp [Nodes.Room, hnil, ramfsMaxChildren]

/-- **`vfs_mkdir` leaves its search key behind**: a live dentry, not the root, in no directory. -/
theorem oneDir_unlinked : ∃ s p d, ramfsInit .endless .boot = .done () emptyFs ∧
      Run (callStep .endless) emptyFs oneDir s ∧
      s.heap.get p = some (.dentry d) ∧ p ≠ s.rootDentry ∧ (∀ a k, ¬Slot s a k p) ∧
      ¬WholeShape s := by
  have hrun : Run (callStep .endless) emptyFs oneDir _ := .of_exec rfl
  have hshape := treeShape_of_run rfl hrun
  have hnot := hshape.unlinked 7 _ rfl rfl
  refine ⟨_, 7, _, rfl, hrun, rfl, by decide, hnot, fun hwhole => ?_⟩
  obtain ⟨a, k, hslot, -⟩ := hwhole.linked 7 _ rfl (by decide)
  exact hnot a k hslot

end Hvos.Fs
