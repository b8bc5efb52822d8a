import Hvos.Fs.Guards

/-!
# Fs/Names — the names in a directory

Names in a directory should be different from each other, and be names that `vfs_lookup` can find.
`vfs_mkdir` looks for its name first, `vfs_create` does not, and neither looks at the name itself.
The calls that keep the names in order are exactly those that add a new and proper one.
-/

namespace Hvos.Fs

open Prog Memory Function

/-! ## Names in order -/

/-- A name that `vfs_lookup` takes for one. -/
def Nameable (name : CString) : Prop := name ≠ [] ∧ name ≠ dot ∧ name ≠ dotdot

instance (name : CString) : Decidable (Nameable name) := inferInstanceAs (Decidable (_ ∧ _))

/-- **The names in every directory**: all different, and each of them nameable. -/
structure NamesOk (s : FsState) : Prop where
  unique : ∀ {a k k' p p' d d'}, Slot s a k p → Slot s a k' p' → s.heap.get p = some (.dentry d) →
    s.heap.get p' = some (.dentry d') → d.dName = d'.dName → k = k'
  nameable : ∀ {a k p d}, Slot s a k p → s.heap.get p = some (.dentry d) → Nameable d.dName

/-- The names in a directory. -/
def Nodes.names (N : Nodes) (p : Ptr) : List CString := (N.kids p).map Node.name

/-- The same, on the tree. -/
def Nodes.NamesOk (N : Nodes) : Prop :=
  ∀ q ∈ N, q.body = .dir → (N.names q.dentry).Nodup ∧ ∀ x ∈ N.names q.dentry, Nameable x

section Names

variable {K : Kmalloc} {N : Nodes} {n m q : Node} {s s' : FsState} {name : CString}

theorem Holds.namesOk_iff (h : Holds N s) : NamesOk s ↔ N.NamesOk := by
  have hdentry : ∀ {q n : Node} {k : ℕ}, (N.kids q.dentry)[k]? = some n →
      s.heap.get n.dentry = some (.dentry ⟨n.name, n.inode, n.parent⟩) := fun hk =>
    (h.placed _ (Nodes.mem_kids.1 (List.mem_of_getElem? hk)).1).dentry
  constructor
  · refine fun hs q hq hdir => ⟨List.nodup_iff_getElem?_ne_getElem?.2 fun i j hij hj heq => ?_,
      fun x hx => ?_⟩
    · rw [Nodes.names, List.length_map] at hj
      rw [Nodes.names, List.getElem?_map, List.getElem?_map, List.getElem?_eq_getElem hj,
        List.getElem?_eq_getElem (hij.trans hj)] at heq
      have hi := List.getElem?_eq_getElem (hij.trans hj)
      have hj := List.getElem?_eq_getElem hj
      exact absurd (hs.unique (h.slot_iff.2 ⟨q, hq, hdir, rfl, _, hi, rfl⟩)
        (h.slot_iff.2 ⟨q, hq, hdir, rfl, _, hj, rfl⟩) (hdentry hi) (hdentry hj)
        (Option.some.inj heq)) hij.ne
    · obtain ⟨n, hn, rfl⟩ := List.mem_map.1 hx
      obtain ⟨k, hk⟩ := List.mem_iff_getElem?.1 hn
      exact hs.nameable (h.slot_iff.2 ⟨q, hq, hdir, rfl, n, hk, rfl⟩) (hdentry hk)
  · refine fun hN => ⟨fun hslot hslot' hd hd' heq => ?_, fun hslot hd => ?_⟩
    · obtain ⟨q, hq, hdir, rfl, n, hk, rfl⟩ := h.slot_iff.1 hslot
      obtain ⟨q', hq', -, hdata, n', hk', rfl⟩ := h.slot_iff.1 hslot'
      obtain rfl := h.wf.owner_eq hq hq' q.data_mem (hdata ▸ q'.data_mem)
      cases (hdentry hk).symm.trans hd
      cases (hdentry hk').symm.trans hd'
      have hlt := (List.getElem?_eq_some_iff.1 hk).1
      refine (List.getElem?_inj (by simpa [Nodes.names] using hlt) (hN q hq hdir).1).1 ?_
      rw [Nodes.names, List.getElem?_map, List.getElem?_map, hk, hk']
      exact congrArg some heq
    · obtain ⟨q, hq, hdir, -, n, hk, rfl⟩ := h.slot_iff.1 hslot
      cases (hdentry hk).symm.trans hd
      exact (hN q hq hdir).2 _ (List.mem_map_of_mem (List.mem_of_getElem? hk))

theorem Nodes.names_snoc (N : Nodes) (n : Node) (p : Ptr) :
    Nodes.names (N ++ [n]) p = N.names p ++ if n.parent = p then [n.name] else [] := by
  rw [Nodes.names, Nodes.kids_snoc, List.map_append, Nodes.names]
  split_ifs <;> rfl

theorem Nodes.names_setBody (N : Nodes) (p : Ptr) (b : Body) : (N.setBody p b).names = N.names := by
  funext q
  rw [Nodes.names, Nodes.kids_setBody, Nodes.setBody, List.map_map, Nodes.names]
  refine List.map_congr_left fun n _ => ?_
  simp only [comp_apply]
  split_ifs <;> rfl

theorem Nodes.child_eq_none_iff : N.child q name = none ↔ name ∉ N.names q.dentry := by
  simp [Nodes.child, Nodes.names]

/-- **A new node keeps the names in order** iff its name is nameable, and new where it goes. -/
theorem Nodes.namesOk_snoc (h : Wf N) (h' : Wf (N ++ [n])) (hq : q ∈ N) (hdir : q.body = .dir)
    (hparent : n.parent = q.dentry) :
    Nodes.NamesOk (N ++ [n]) ↔ N.NamesOk ∧ N.child q n.name = none ∧ Nameable n.name := by
  have hhere : Nodes.names (N ++ [n]) q.dentry = N.names q.dentry ++ [n.name] := by
    rw [Nodes.names_snoc, if_pos hparent]
  have hthere : ∀ {m}, m ∈ N → m ≠ q → Nodes.names (N ++ [n]) m.dentry = N.names m.dentry := by
    intro m hm hne
    have hnot : n.parent ≠ m.dentry := fun heq =>
      hne (h.dentry_inj hm hq (heq.symm.trans hparent))
    rw [Nodes.names_snoc, if_neg hnot, List.append_nil]
  rw [Nodes.child_eq_none_iff]
  constructor
  · intro hN
    have hlast := hN q (List.mem_append_left _ hq) hdir
    rw [hhere, List.nodup_append] at hlast
    refine ⟨fun m hm hmdir => ?_, fun hmem => ?_, hlast.2 _ (by simp)⟩
    · rcases eq_or_ne m q with rfl | hne
      · exact ⟨hlast.1.1, fun x hx => hlast.2 x (List.mem_append_left _ hx)⟩
      · have hm' := hN m (List.mem_append_left _ hm) hmdir
        rwa [hthere hm hne] at hm'
    · exact hlast.1.2.2 _ hmem _ (List.mem_singleton_self _) rfl
  · rintro ⟨hN, hnew, hname⟩ m hm hmdir
    rcases List.mem_append.1 hm with hm | hm
    · rcases eq_or_ne m q with rfl | hne
      · rw [hhere, List.nodup_append]
        refine ⟨⟨(hN m hm hmdir).1, List.nodup_singleton _, ?_⟩, fun x hx => ?_⟩
        · rintro x hx y hy rfl
          exact hnew (List.mem_singleton.1 hy ▸ hx)
        · rcases List.mem_append.1 hx with hx | hx
          · exact (hN m hm hmdir).2 x hx
          · exact List.mem_singleton.1 hx ▸ hname
      · rw [hthere hm hne]
        exact hN m hm hmdir
    · -- Below the new node there is nothing.
      obtain rfl := List.mem_singleton.1 hm
      have hfresh : m.dentry ∉ N.ptrs := by
        have hnodup := h'.nodup
        rw [Nodes.ptrs, List.flatMap_append, List.nodup_append] at hnodup
        exact fun hmem => hnodup.2.2 _ hmem _ (by simp [m.dentry_mem]) rfl
      have hne : m.parent ≠ m.dentry := fun heq =>
        hfresh (heq ▸ hparent ▸ Nodes.mem_ptrs.2 ⟨q, hq, q.dentry_mem⟩)
      have hnil : Nodes.names (N ++ [m]) m.dentry = [] := by
        rw [Nodes.names_snoc, if_neg hne, Nodes.names,
          h.kids_eq_nil hfresh (h'.ptr_ne_zero (by simp) m.dentry_mem)]
        rfl
      rw [hnil]
      exact ⟨List.nodup_nil, by simp⟩

/-- A root alone has no entries. -/
theorem Nodes.names_root {r : Node} (h : Wf [r]) (hq : q ∈ [r]) :
    Nodes.names [r] q.dentry = [] := by
  obtain ⟨r', hr', -, hparent, -⟩ := h.rooted.exists_root
  cases hr'
  have hne := h.ptr_ne_zero hq q.dentry_mem
  simp [Nodes.names, Nodes.kids, hparent, hne.symm]

theorem Nodes.namesOk_root {r : Node} (h : Wf [r]) : Nodes.NamesOk [r] := by
  intro q hq _
  rw [Nodes.names_root h hq]
  exact ⟨List.nodup_nil, by simp⟩

/-- New contents do not matter. -/
theorem Nodes.namesOk_setBody (h : Wf N) (hm : m ∈ N) (hfile : m.body ≠ .dir) {b : Body}
    (hb : b ≠ .dir) : (N.setBody m.dentry b).NamesOk ↔ N.NamesOk := by
  unfold Nodes.NamesOk
  rw [Nodes.names_setBody]
  constructor
  · intro hN q hq hdir
    have hne : q ≠ m := by
      rintro rfl
      exact hfile hdir
    exact hN q ((Nodes.mem_setBody h hm).2 (.inr ⟨hq, hne⟩)) hdir
  · intro hN q hq hdir
    rcases (Nodes.mem_setBody h hm).1 hq with rfl | ⟨hq, -⟩
    · exact absurd hdir hb
    · exact hN q hq hdir

/-! ## Which calls keep them in order -/

/-- What `vfs_create` may add to the tree. -/
def Nodes.CreateOk (N : Nodes) (path : Option CString) : Prop :=
  ∀ q name, N.target path 32 = some (q, name) → N.Room q →
    N.child q (name.take 31) = none ∧ Nameable (name.take 31)

/-- What `vfs_mkdir` may add to the tree: it looks for the name itself. -/
def Nodes.MkdirOk (N : Nodes) (path : Option CString) : Prop :=
  ∀ q name, N.target path 64 = some (q, name) → N.Room q → N.child q (name.take 31) = none →
    Nameable (name.take 31)

/-- What may be added, by `vfs_mkdir` and by `vfs_create`. -/
def nameGuards : Guards := ⟨Nodes.MkdirOk, Nodes.CreateOk⟩

theorem vfsCreate_namesOk (hN : Holds N s) {path : Option CString} {mode : UInt32} {r : ℤ}
    (hrun : vfsCreate K path mode s = .done r s') : NamesOk s' ↔ NamesOk s ∧ N.CreateOk path := by
  rw [hN.namesOk_iff]
  rcases (vfsCreate_spec hN path mode).apply hrun with
    ⟨q, name, ht, hroom, -, p, ino, data, num, h'⟩ | ⟨hno, -, h'⟩
  · obtain ⟨hq, hdir⟩ := Nodes.target_mem ht
    rw [h'.namesOk_iff, Nodes.namesOk_snoc hN.wf h'.wf hq hdir rfl]
    refine and_congr_right fun _ => ⟨fun hok q' name' ht' _ => ?_, fun hok => hok q name ht hroom⟩
    obtain ⟨rfl, rfl⟩ := Prod.mk.inj (Option.mem_unique ht ht')
    exact hok
  · rw [h'.namesOk_iff]
    exact (and_iff_left fun q name ht hroom => absurd hroom (hno q name ht)).symm

theorem vfsMkdir_namesOk (hN : Holds N s) {path : Option CString} {mode : UInt32} {r : ℤ}
    (hrun : vfsMkdir K path mode s = .done r s') : NamesOk s' ↔ NamesOk s ∧ N.MkdirOk path := by
  rw [hN.namesOk_iff]
  rcases (vfsMkdir_spec hN path mode).apply hrun with
    ⟨q, name, ht, hnew, hroom, -, p, ino, data, num, h'⟩ | ⟨hno, -, h'⟩
  · obtain ⟨hq, hdir⟩ := Nodes.target_mem ht
    rw [h'.namesOk_iff, Nodes.namesOk_snoc hN.wf h'.wf hq hdir rfl]
    refine and_congr_right fun _ => ⟨fun hok q' name' ht' _ _ => ?_,
      fun hok => ⟨hnew, hok q name ht hroom hnew⟩⟩
    obtain ⟨rfl, rfl⟩ := Prod.mk.inj (Option.mem_unique ht ht')
    exact hok.2
  · rw [h'.namesOk_iff]
    exact (and_iff_left fun q name ht hroom hnew => absurd hroom (hno q name ht hnew)).symm

/-- **Names hang on what is added**; a lookup, an opened file and new contents do not matter. -/
theorem namesOk_guarded (K : Kmalloc) : Guarded K nameGuards NamesOk where
  mkdir hN hrun := vfsMkdir_namesOk hN hrun
  create hN hrun := vfsCreate_namesOk hN hrun
  fill {N s s' path data n u} hN hn hrun := by
    rcases (fillFile_spec hN path data hn).apply hrun with
      ⟨m, size, f0, c0, f, c, hl, hb, -, -, -, h'⟩ | ⟨-, hs⟩
    · rw [hN.namesOk_iff, h'.namesOk_iff,
        Nodes.namesOk_setBody hN.wf (Nodes.lookup_mem hl) (by simp [hb]) (by simp)]
    · rw [hN.namesOk_iff, (hN.same hs).namesOk_iff]
  same hN hs := by rw [hN.namesOk_iff, (hN.same hs).namesOk_iff]
  opened hN hN' _ := by rw [hN.namesOk_iff, hN'.namesOk_iff]

/-! ## Every run -/

/-- **What a call may add.** -/
def CallOk (K : Kmalloc) : Call → FsState → Prop := nameGuards.OnCall K

/-- **The names are in order all along a run** exactly if every call of it adds a new and proper
name, if it adds one. -/
theorem namesOk_iff_callOk {s0 : FsState} {cs : List Call}
    (hinit : ramfsInit K .boot = .done () s0) (h : Run (callStep K) s0 cs s) :
    (∀ cs1 cs2 t, cs = cs1 ++ cs2 → Run (callStep K) s0 cs1 t → NamesOk t) ↔
      ∀ cs1 c cs2 t, cs = cs1 ++ c :: cs2 → Run (callStep K) s0 cs1 t → CallOk K c t := by
  have hroot : NamesOk s0 := by
    obtain ⟨r, hr⟩ := ramfsInit_spec.apply hinit
    exact hr.namesOk_iff.2 (Nodes.namesOk_root hr.wf)
  have hrun : ∀ {cs s}, Run (callStep K) s0 cs s → (NamesOk s ↔ _) :=
    (namesOk_guarded K).of_run hinit hroot
  refine ⟨fun hall => (hrun h).1 (hall cs [] s (by simp) h), fun hs cs1 cs2 t hcs ht => ?_⟩
  refine (hrun ht).2 fun cs3 c cs4 u hcs1 hu => ?_
  exact hs cs3 c (cs4 ++ cs2) u (by simp [hcs, hcs1]) hu

end Names

/-- `vfs_create("/f", 0)`. -/
def createF : Call := .create (some [slash, 102]) 0

/-- The root of an empty file system has no entries, in whatever tree. -/
theorem emptyFs_names {N : Nodes} {q : Node} (hN : Holds N emptyFs) (hq : q ∈ N)
    (hdir : q.body = .dir) : N.names q.dentry = [] := by
  obtain ⟨r, hr⟩ := ramfsInit_spec.apply (show ramfsInit .endless .boot = .done () emptyFs from rfl)
  rw [Nodes.names, List.map_eq_nil_iff, List.eq_nil_iff_forall_not_mem]
  intro n hn
  obtain ⟨k, hk⟩ := List.mem_iff_getElem?.1 hn
  obtain ⟨x, hx, -, -, y, hy, -⟩ := hr.slot_iff.1 (hN.slot_iff.2 ⟨q, hq, hdir, rfl, n, hk, rfl⟩)
  have hnil := Nodes.names_root hr.wf hx
  rw [Nodes.names, List.map_eq_nil_iff] at hnil
  simp [hnil] at hy

/-- The first file of a name is fine. -/
theorem namesOk_iff_callOk_createF :
    ∃ s, Run (callStep .endless) emptyFs [createF] s ∧ NamesOk s := by
  have hrun : Run (callStep .endless) emptyFs [createF] _ := .of_exec rfl
  refine ⟨_, hrun, (namesOk_iff_callOk rfl hrun).2 (fun _ _ _ _ => Run.of_single ?_)
    [createF] [] _ rfl hrun⟩
  intro N hN q name hname _
  obtain ⟨hq, hdir⟩ := Nodes.target_mem hname
  obtain rfl : name = [102] := by
    rw [Nodes.target, show vfsSplitPath _ 256 32 = some ([slash], [102]) from rfl] at hname
    dsimp only at hname
    split at hname
    · cases hname
    · split at hname <;> cases hname
      rfl
  exact ⟨Nodes.child_eq_none_iff.2 (by simp [emptyFs_names hN hq hdir]), by decide⟩

/-- **The second one is not.** -/
theorem createF_twice : ∃ s, ramfsInit .endless .boot = .done () emptyFs ∧
      Run (callStep .endless) emptyFs [createF, createF] s ∧ ¬NamesOk s := by
  refine ⟨_, rfl, .of_exec rfl, fun hok => ?_⟩
  have hfirst : (0 : ℕ) = 1 := hok.unique (a := 3) (k := 0) ⟨_, rfl, by decide, rfl⟩
    ⟨_, rfl, by decide, rfl⟩ rfl rfl rfl
  exact absurd hfirst (by decide)

end Hvos.Fs
